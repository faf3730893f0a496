import CdsBenchmarks.Seqlock.SeqlockDefs
import Mathlib.Data.Finset.Card

/-! The sequence lock is a linearizable register of pairs while `_seq` does not wrap. A
write takes effect at its final `fetch_add`, a read at the load that confirms its `_seq`. -/

namespace Cds.Seqlock
open Concurrent Program

/-- An atomic register holding a pair. -/
def register : ObjectSpec (CInt × CInt) Op Res where
  init := (0, 0)
  post s o r s' :=
    match o with
    | .read => r = some s ∧ s' = s
    | .write d1 d2 => r = none ∧ s' = (d1, d2)

def isWriteCall : Mark Op Res → Bool
  | .call (.write _ _) => true
  | _ => false

variable {T : Type*}

/-- The number of write calls in a trace. -/
def writeCalls (h : List (T × Mark Op Res)) : ℕ := h.countP fun e => isWriteCall e.2

theorem writeCalls_append (h h' : List (T × Mark Op Res)) :
    writeCalls (h ++ h') = writeCalls h + writeCalls h' := List.countP_append ..

namespace Register

/-- `n` counts the increments of `_seq`, `val` is the pair of the last completed write,
`st` follows the register, and `pend` are the writes before their final `fetch_add`. -/
structure World (T : Type*) where
  mem : Mem
  hist : List (T × Mark Op Res)
  n : ℕ
  val : CInt × CInt
  st : T → Status Op Res
  writer : Option T
  pend : Finset T

structure Glob [DecidableEq T] (w : World T) : Prop where
  replay : register.Replay w.hist w.val w.st
  seq : w.mem.seq = BitVec.ofNat 32 w.n
  parity : w.n % 2 = if w.writer.isSome then 1 else 0
  data : w.writer = none → w.val = (w.mem.data1, w.mem.data2)
  pend : ∀ t, w.writer = some t → t ∈ w.pend
  count : w.n + 2 * w.pend.card = 2 * writeCalls w.hist + if w.writer.isSome then 1 else 0

/-- The even value `oldSeq` was loaded when `_seq` had been incremented `k` times. -/
def Snap (w : World T) (oldSeq : CInt) (k : ℕ) : Prop :=
  oldSeq = BitVec.ofNat 32 k ∧ k ≤ w.n ∧ k % 2 = 0

def Reading (t : T) (w : World T) : Prop := w.st t = .pending .read ∧ t ∉ w.pend

def Writing (t : T) (w : World T) (d1 d2 : CInt) : Prop :=
  w.st t = .pending (.write d1 d2) ∧ t ∈ w.pend

def Local (t : T) (w : World T) : Pc → Prop
  | .idle => w.st t = .idle ∧ t ∉ w.pend
  | .readSeq => Reading t w
  | .readData1 oldSeq => Reading t w ∧ ∃ k, Snap w oldSeq k
  | .readData2 oldSeq d1 => Reading t w ∧ ∃ k, Snap w oldSeq k ∧ (k = w.n → d1 = w.val.1)
  | .readCheck oldSeq d1 d2 => Reading t w ∧ ∃ k, Snap w oldSeq k ∧ (k = w.n → (d1, d2) = w.val)
  | .writeSeq d1 d2 => Writing t w d1 d2 ∧ w.writer ≠ some t
  | .writeCas oldSeq d1 d2 => (Writing t w d1 d2 ∧ w.writer ≠ some t) ∧ ∃ k, Snap w oldSeq k
  | .writeData1 d1 d2 => Writing t w d1 d2 ∧ w.writer = some t
  | .writeData2 d1 d2 => Writing t w d1 d2 ∧ w.writer = some t ∧ w.mem.data1 = d1
  | .writeAdd d1 d2 =>
    Writing t w d1 d2 ∧ w.writer = some t ∧ w.mem.data1 = d1 ∧ w.mem.data2 = d2
  | .ret r => (∃ o, w.st t = .done o r) ∧ t ∉ w.pend

/-- What the other threads see of a step of `t`. -/
structure Guar (t : T) (w w' : World T) : Prop where
  st : ∀ u, u ≠ t → w'.st u = w.st u
  pend : ∀ u, u ≠ t → (u ∈ w'.pend ↔ u ∈ w.pend)
  writer : ∀ u, u ≠ t → (w'.writer = some u ↔ w.writer = some u)
  mono : w.n ≤ w'.n
  val : w'.n = w.n → w'.val = w.val
  own : ∀ u, u ≠ t → w.writer = some u →
    w'.mem.data1 = w.mem.data1 ∧ w'.mem.data2 = w.mem.data2

theorem Guar.refl (t : T) (w : World T) : Guar t w w :=
  ⟨fun _ _ => rfl, fun _ _ => Iff.rfl, fun _ _ => Iff.rfl, le_rfl, fun _ => rfl,
    fun _ _ _ => ⟨rfl, rfl⟩⟩

theorem Snap.mono {w w' : World T} {oldSeq : CInt} {k : ℕ} (h : Snap w oldSeq k) (hn : w.n ≤ w'.n) :
    Snap w' oldSeq k := ⟨h.1, h.2.1.trans hn, h.2.2⟩

theorem Local.stable {t u : T} {w w' : World T} {l : Pc} (hu : u ≠ t) (hl : Local u w l)
    (hg : Guar t w w') : Local u w' l := by
  have hst := hg.st u hu
  have hpend := hg.pend u hu
  have hwriter := hg.writer u hu
  -- a snapshot of the current `_seq` stays exact as long as `_seq` does not move
  have hval : ∀ {k}, k ≤ w.n → k = w'.n → k = w.n ∧ w'.val = w.val := by
    intro k hk heq
    have := hg.mono
    have hn : w'.n = w.n := by omega
    exact ⟨by omega, hg.val hn⟩
  cases l with
  | idle | readSeq | writeSeq | writeData1 | ret =>
    simpa only [Local, Reading, Writing, hst, hpend, hwriter, ne_eq] using hl
  | readData1 | writeCas =>
    obtain ⟨h, k, hk⟩ := hl
    exact ⟨by simpa only [Reading, Writing, hst, hpend, hwriter, ne_eq] using h, k, hk.mono hg.mono⟩
  | readData2 | readCheck =>
    obtain ⟨h, k, hk, hd⟩ := hl
    refine ⟨by simpa only [Reading, hst, hpend] using h, k, hk.mono hg.mono, fun heq => ?_⟩
    obtain ⟨heq, hv⟩ := hval hk.2.1 heq
    rw [hv]
    exact hd heq
  | writeData2 | writeAdd =>
    have hown := hg.own u hu hl.2.1
    simpa only [Local, Writing, hst, hpend, hwriter, hown.1, hown.2] using hl

/-! ## What each step does to the world -/

variable [DecidableEq T]

def assertions : Assertions T Mem Pc (Mark Op Res) (World T) where
  mem := World.mem
  hist := World.hist
  glob := Glob
  loc := Local
  guar := Guar

variable {t : T} {w : World T}

theorem Glob.lt (hg : Glob w) (hadm : writeCalls w.hist < 2 ^ 30) : w.n < 2 ^ 31 := by
  have hcount := hg.count
  cases hwr : w.writer with
  | none =>
    simp [hwr] at hcount
    omega
  | some u =>
    have := Finset.card_pos.mpr ⟨u, hg.pend u hwr⟩
    simp [hwr] at hcount
    omega

theorem Glob.even_iff (hg : Glob w) : w.n % 2 = 0 ↔ w.writer = none := by
  have := hg.parity
  cases hwr : w.writer <;> simp [hwr] at this ⊢ <;> omega

theorem Glob.seq_eq (hg : Glob w) (hadm : writeCalls w.hist < 2 ^ 30) {oldSeq : CInt} {k : ℕ}
    (hk : Snap w oldSeq k) (heq : w.mem.seq = oldSeq) : k = w.n := by
  have hn := hg.lt hadm
  have h : BitVec.ofNat 32 w.n = BitVec.ofNat 32 k := by rw [← hg.seq, heq, hk.1]
  have h := congrArg BitVec.toNat h
  rw [BitVec.toNat_ofNat, BitVec.toNat_ofNat] at h
  have := hk.2.1
  omega

/-- A load that passes the parity test is a snapshot. -/
theorem Glob.snap (hg : Glob w) (hadm : writeCalls w.hist < 2 ^ 30) (hb : busy w.mem.seq = false) :
    Snap w w.mem.seq w.n := by
  have hn := hg.lt hadm
  refine ⟨hg.seq, le_rfl, ?_⟩
  by_contra hodd
  have : busy w.mem.seq = true := by
    rw [busy_iff, hg.seq, BitVec.toNat_ofNat]
    omega
  simp [hb] at this

/-- The world after thread `t` emitted `e` and moved to status `x`. -/
def World.mark (w : World T) (t : T) (e : Mark Op Res) (x : Status Op Res) : World T :=
  { w with hist := w.hist ++ [(t, e)], st := Function.update w.st t x }

theorem Guar.mark (t : T) (w : World T) (e : Mark Op Res) (x : Status Op Res) :
    Guar t w (w.mark t e x) :=
  { Guar.refl t w with st := fun _ hu => Function.update_of_ne hu .. }

theorem Glob.count_call (hg : Glob w) (d1 d2 : CInt) :
    w.n + 2 * w.pend.card + 2 = 2 * writeCalls (w.hist ++ [(t, .call (.write d1 d2))]) +
      if w.writer.isSome then 1 else 0 := by
  have h1 : writeCalls [(t, Mark.call (.write d1 d2))] = 1 := rfl
  rw [writeCalls_append, h1, hg.count]
  omega

theorem Glob.count_other (hg : Glob w) {e : Mark Op Res} (he : isWriteCall e = false) :
    w.n + 2 * w.pend.card = 2 * writeCalls (w.hist ++ [(t, e)]) +
      if w.writer.isSome then 1 else 0 := by
  have h0 : writeCalls [(t, e)] = 0 := by simp [writeCalls, he]
  rw [writeCalls_append, h0, hg.count, Nat.add_zero]

theorem follows_call (hg : Glob w) (hl : Local t w .idle) (o : Op) :
    assertions.Follows t w w.mem o.entry [.call o] := by
  obtain ⟨hst, hp⟩ := hl
  have hreplay := hg.replay.call (o := o) hst
  have hself : (w.mark t (.call o) (.pending o)).st t = .pending o := Function.update_self ..
  cases o with
  | read =>
    refine ⟨w.mark t (.call .read) (.pending .read), rfl, rfl, ?_, ⟨hself, hp⟩, .mark ..⟩
    exact ⟨hreplay, hg.seq, hg.parity, hg.data, hg.pend, hg.count_other rfl⟩
  | write d1 d2 =>
    have hw : w.writer ≠ some t := fun h => hp (hg.pend t h)
    refine ⟨{ w.mark t (.call (.write d1 d2)) (.pending (.write d1 d2)) with
      pend := insert t w.pend }, rfl, rfl, ?_, ⟨⟨hself, Finset.mem_insert_self ..⟩, hw⟩,
      { Guar.mark t w (.call (.write d1 d2)) (.pending (.write d1 d2)) with
        pend := fun u hu => by simp [hu] }⟩
    refine ⟨hreplay, hg.seq, hg.parity, hg.data,
      fun u hu => Finset.mem_insert_of_mem (hg.pend u hu), ?_⟩
    refine Eq.trans ?_ (hg.count_call d1 d2)
    simp only [World.mark, Finset.card_insert_of_notMem hp]
    omega

theorem follows_ret (hg : Glob w) {r : Res} (hl : Local t w (.ret r)) :
    assertions.Follows t w w.mem .idle [.ret r] := by
  obtain ⟨⟨o, hst⟩, hp⟩ := hl
  refine ⟨w.mark t (.ret r) .idle, rfl, rfl, ?_, ⟨Function.update_self .., hp⟩, .mark ..⟩
  exact ⟨hg.replay.ret hst, hg.seq, hg.parity, hg.data, hg.pend, hg.count_other rfl⟩

/-- The load that finds `_seq` unchanged: the pair read is the register's value. -/
theorem follows_readCheck (hg : Glob w) (hadm : writeCalls w.hist < 2 ^ 30) {oldSeq d1 d2 : CInt}
    (hl : Local t w (.readCheck oldSeq d1 d2)) (heq : w.mem.seq = oldSeq) :
    assertions.Follows t w w.mem (.ret (some (d1, d2))) [.lin] := by
  obtain ⟨⟨hst, hp⟩, k, hk, hval⟩ := hl
  have hread := hval (hg.seq_eq hadm hk heq)
  have hreplay := hg.replay.lin (r := some (d1, d2)) hst ⟨by rw [hread], rfl⟩
  refine ⟨w.mark t .lin (.done .read (some (d1, d2))), rfl, rfl, ?_,
    ⟨⟨_, Function.update_self ..⟩, hp⟩, .mark ..⟩
  exact ⟨hreplay, hg.seq, hg.parity, hg.data, hg.pend, hg.count_other rfl⟩

theorem follows_writeCas (hg : Glob w) (hadm : writeCalls w.hist < 2 ^ 30) {oldSeq d1 d2 : CInt}
    (hl : Local t w (.writeCas oldSeq d1 d2)) (heq : w.mem.seq = oldSeq) :
    assertions.Follows t w { w.mem with seq := oldSeq + 1 } (.writeData1 d1 d2) [] := by
  obtain ⟨⟨hwr, -⟩, k, hk⟩ := hl
  obtain rfl := hg.seq_eq hadm hk heq
  have hnone := hg.even_iff.mp hk.2.2
  refine ⟨{ w with mem := { w.mem with seq := oldSeq + 1 }, n := w.n + 1, writer := some t }, rfl,
    (List.append_nil _).symm, ?_, ⟨hwr, rfl⟩, ?_⟩
  · have hcount := hg.count
    simp only [hnone, Option.isSome_none, Bool.false_eq_true, if_false] at hcount
    refine ⟨hg.replay, by simp [hk.1, BitVec.ofNat_add], ?_, by simp, ?_, ?_⟩
    · have := hk.2.2
      simp only [Option.isSome_some, if_true]
      omega
    · rintro u hu
      obtain rfl : t = u := by simpa using hu
      exact hwr.2
    · simp only [Option.isSome_some, if_true]
      omega
  · refine { Guar.refl t w with
      writer := fun u hu => by simp [hnone, Ne.symm hu]
      mono := Nat.le_succ _
      val := fun _ => rfl
      own := fun u _ hu => absurd hu (by simp [hnone]) }

theorem follows_data (hg : Glob w) {d1 d2 : CInt} {l : Pc} (hw : w.writer = some t)
    (hl : ∀ m' : World T, m' = { w with mem := ⟨w.mem.seq, d1, d2⟩ } → Local t m' l) :
    assertions.Follows t w ⟨w.mem.seq, d1, d2⟩ l [] := by
  refine ⟨{ w with mem := ⟨w.mem.seq, d1, d2⟩ }, rfl, (List.append_nil _).symm, ?_, hl _ rfl, ?_⟩
  · exact ⟨hg.replay, hg.seq, hg.parity, fun h => absurd h (by simp [hw]), hg.pend, hg.count⟩
  · refine { Guar.refl t w with own := fun u hu hu' => ?_ }
    exact absurd (Option.some.inj (hw.symm.trans hu')).symm hu

/-- The final `fetch_add`: the pair stored becomes the register's value. -/
theorem follows_writeAdd (hg : Glob w) {d1 d2 : CInt} (hl : Local t w (.writeAdd d1 d2)) :
    assertions.Follows t w { w.mem with seq := w.mem.seq + 1 } (.ret none) [.lin] := by
  obtain ⟨⟨hst, hp⟩, hwr, h1, h2⟩ := hl
  have hpost : register.post w.val (.write d1 d2) none (d1, d2) := ⟨rfl, rfl⟩
  have hreplay := hg.replay.lin hst hpost
  refine ⟨{ w.mark t .lin (.done (.write d1 d2) none) with
    mem := { w.mem with seq := w.mem.seq + 1 }, n := w.n + 1, val := (d1, d2), writer := none
    pend := w.pend.erase t }, rfl, rfl, ?_, ⟨⟨_, Function.update_self ..⟩, by simp⟩, ?_⟩
  · have hcount := hg.count_other (t := t) (e := .lin) rfl
    have hpar := hg.parity
    have hcard := Finset.card_erase_add_one hp
    simp only [hwr, Option.isSome_some, if_true] at hcount hpar
    refine ⟨hreplay, by simp [hg.seq, BitVec.ofNat_add], ?_, fun _ => by rw [h1, h2], by simp, ?_⟩
    · simp only [Option.isSome_none, Bool.false_eq_true, if_false]
      omega
    · simp only [World.mark, Option.isSome_none, Bool.false_eq_true, if_false]
      omega
  · refine { Guar.mark t w .lin (.done (.write d1 d2) none) with
      pend := fun u hu => by simp [hu]
      writer := fun u hu => by simp [hwr, Ne.symm hu]
      mono := Nat.le_succ _
      val := fun h => absurd h (Nat.succ_ne_self _)
      own := fun u _ hu => ⟨rfl, rfl⟩ }

/-- Every step of a run with fewer than `2^30` writes. -/
theorem follows_step (hg : Glob w) (hadm : writeCalls w.hist < 2 ^ 30) {l₀ l : Pc} (hl : Local t w l₀)
    {a : Act} {m : Mem} {es : List (Mark Op Res)} (hs : step a w.mem l₀ = some (m, l, es)) :
    assertions.Follows t w m l es := by
  cases a with
  | call o =>
    obtain ⟨rfl, rfl, rfl, rfl⟩ : l₀ = .idle ∧ w.mem = m ∧ o.entry = l ∧ [Mark.call o] = es := by
      simpa [step] using hs
    exact follows_call hg hl o
  | run =>
    cases l₀ <;> simp only [step, access, reduceCtorEq] at hs
    case readSeq =>
      split at hs <;> cases hs
      · exact Assertions.follows_quiet hg hl (.refl t w)
      · next hb =>
          exact Assertions.follows_quiet hg ⟨hl, _, hg.snap hadm (by simpa using hb)⟩ (.refl t w)
    case readData1 oldSeq =>
      cases hs
      obtain ⟨hr, k, hk⟩ := hl
      refine Assertions.follows_quiet hg ⟨hr, k, hk, fun heq => ?_⟩ (.refl t w)
      rw [hg.data (hg.even_iff.mp (heq ▸ hk.2.2))]
    case readData2 oldSeq d1 =>
      cases hs
      obtain ⟨hr, k, hk, hval⟩ := hl
      refine Assertions.follows_quiet hg ⟨hr, k, hk, fun heq => ?_⟩ (.refl t w)
      rw [hval heq, hg.data (hg.even_iff.mp (heq ▸ hk.2.2))]
    case readCheck oldSeq d1 d2 =>
      split at hs <;> cases hs
      · next heq => exact follows_readCheck hg hadm hl heq
      · exact Assertions.follows_quiet hg hl.1 (.refl t w)
    case writeSeq d1 d2 =>
      split at hs <;> cases hs
      · exact Assertions.follows_quiet hg hl (.refl t w)
      · next hb =>
          exact Assertions.follows_quiet hg ⟨hl, _, hg.snap hadm (by simpa using hb)⟩ (.refl t w)
    case writeCas oldSeq d1 d2 =>
      split at hs <;> cases hs
      · next heq => exact follows_writeCas hg hadm hl heq
      · exact Assertions.follows_quiet hg hl.1 (.refl t w)
    case writeData1 d1 d2 =>
      cases hs
      exact follows_data hg hl.2 (by rintro _ rfl; exact ⟨hl.1, hl.2, rfl⟩)
    case writeData2 d1 d2 =>
      cases hs
      exact follows_data hg hl.2.1 (by rintro _ rfl; exact ⟨hl.1, hl.2.1, hl.2.2, rfl⟩)
    case writeAdd d1 d2 =>
      cases hs
      exact follows_writeAdd hg hl
    case ret r =>
      cases hs
      exact follows_ret hg hl

def outline : Outline (program T) anyStep (fun h => writeCalls h < 2 ^ 30) (World T) where
  toAssertions := assertions
  step hg hl hs _ hadm := by
    refine follows_step hg ?_ (hl _) hs
    exact Nat.lt_of_le_of_lt (writeCalls_append .. ▸ Nat.le_add_right ..) hadm
  stable hu _ _ hl hguar := hl.stable hu hguar

theorem holds_start :
    (outline (T := T)).Holds ⟨seqlock, [], 0, (0, 0), fun _ => .idle, none, ∅⟩ [] (start T) where
  mem := rfl
  hist := rfl
  glob := ⟨.nil, rfl, rfl, fun _ => rfl, by simp, rfl⟩
  loc _ := ⟨rfl, by simp⟩

end Register

/-! ## The value of the lock -/

section Value
variable [DecidableEq T]

/-- The value of the lock and the pair each thread's open write call is storing. -/
def valueStep (s : (CInt × CInt) × (T → Option (CInt × CInt))) (e : T × Mark Op Res) :
    (CInt × CInt) × (T → Option (CInt × CInt)) :=
  match e.2 with
  | .call .read => (s.1, Function.update s.2 e.1 none)
  | .call (.write d1 d2) => (s.1, Function.update s.2 e.1 (some (d1, d2)))
  | .lin => ((s.2 e.1).getD s.1, s.2)
  | .ret _ => s

def valueState (h : List (T × Mark Op Res)) : (CInt × CInt) × (T → Option (CInt × CInt)) :=
  h.foldl valueStep ((0, 0), fun _ => none)

/-- The value of the lock after a trace: the pair of the last write that has done its
final `fetch_add`, or `(0, 0)`. -/
def lockValue (h : List (T × Mark Op Res)) : CInt × CInt := (valueState h).1

theorem valueState_snoc (h : List (T × Mark Op Res)) (e : T × Mark Op Res) :
    valueState (h ++ [e]) = valueStep (valueState h) e := by
  rw [valueState, List.foldl_append]
  rfl

/-- What `valueStep` remembers of a thread's call, given its status. -/
def Remembers (arg : Option (CInt × CInt)) : Status Op Res → Prop
  | .pending .read => arg = none
  | .pending (.write d1 d2) => arg = some (d1, d2)
  | _ => True

theorem lockValue_of_replay {h : List (T × Mark Op Res)} {s : CInt × CInt}
    {st : T → Status Op Res} (hr : register.Replay h s st) : lockValue h = s ∧
      ∀ t, Remembers ((valueState h).2 t) (st t) := by
  induction hr with
  | nil => exact ⟨rfl, fun _ => trivial⟩
  | @call h s st u o _ _ ih =>
    rw [lockValue, valueState_snoc]
    refine ⟨by cases o <;> exact ih.1, fun t => ?_⟩
    by_cases hu : t = u
    · subst hu
      cases o <;> simp [valueStep, Remembers]
    · rw [Function.update_of_ne hu]
      cases o <;> simpa [valueStep, Function.update_of_ne hu] using ih.2 t
  | @lin h s st u o r s' _ hst hs ih =>
    rw [lockValue, valueState_snoc]
    have harg := ih.2 u
    rw [hst] at harg
    refine ⟨?_, fun t => ?_⟩
    · cases o with
      | read => rw [valueStep, show (valueState h).2 u = none from harg, hs.2]; exact ih.1
      | write d1 d2 => rw [valueStep, show (valueState h).2 u = some (d1, d2) from harg, hs.2]; rfl
    · by_cases hu : t = u
      · subst hu
        rw [Function.update_self]
        trivial
      · rw [Function.update_of_ne hu]
        exact ih.2 t
  | @ret h s st u o r _ _ ih =>
    rw [lockValue, valueState_snoc]
    refine ⟨ih.1, fun t => ?_⟩
    by_cases hu : t = u
    · subst hu
      rw [Function.update_self]
      trivial
    · rw [Function.update_of_ne hu]
      exact ih.2 t

/-- The value is the initial pair or the pair of one write call. -/
theorem lockValue_mem (h : List (T × Mark Op Res)) : (lockValue h = (0, 0) ∨
    ∃ u, (u, .call (.write (lockValue h).1 (lockValue h).2)) ∈ h) ∧
      ∀ t d, (valueState h).2 t = some d → (t, .call (.write d.1 d.2)) ∈ h := by
  induction h using List.reverseRecOn with
  | nil => exact ⟨.inl rfl, by simp [valueState]⟩
  | append_singleton h e ih =>
    obtain ⟨u, e⟩ := e
    have hval : lockValue h = (0, 0) ∨
        ∃ v, (v, Mark.call (.write (lockValue h).1 (lockValue h).2)) ∈ h ++ [(u, e)] :=
      ih.1.imp_right fun ⟨v, hv⟩ => ⟨v, List.mem_append_left _ hv⟩
    have harg : ∀ t d, (valueState h).2 t = some d → (t, Mark.call (.write d.1 d.2)) ∈ h ++ [(u, e)] :=
      fun t d hd => List.mem_append_left _ (ih.2 t d hd)
    rw [lockValue, valueState_snoc]
    cases e with
    | call o =>
      refine ⟨by cases o <;> exact hval, fun t d hd => ?_⟩
      by_cases htu : t = u
      · subst htu
        cases o <;> simp [valueStep] at hd
        simp [← hd]
      · cases o <;> exact harg t d (by simpa [valueStep, Function.update_of_ne htu] using hd)
    | lin =>
      refine ⟨?_, harg⟩
      cases hu : (valueState h).2 u with
      | none => simpa only [valueStep, hu, Option.getD_none, lockValue] using hval
      | some d => exact .inr ⟨u, by simpa only [valueStep, hu, Option.getD_some] using harg u d hu⟩
    | ret r => exact ⟨hval, harg⟩

end Value

/-- **The sequence lock as a register.** With fewer than `2^30` write calls, calls and
returns are linearizable, and each pair a read returns was stored by one write call (or
is initial) and was the value of the lock at a moment between the call and the return. -/
theorem seqlock_linearizable [DecidableEq T] {tr : List (T × Mark Op Res)}
    {c : Config T Mem Pc} (hrun : (program T).Run anyStep (start T) tr c)
    (hw : writeCalls tr < 2 ^ 30) : Linearizable register tr ∧
      ∀ pre post t d, tr = pre ++ (t, .ret (some d)) :: post →
        (d = (0, 0) ∨ ∃ u, (u, .call (.write d.1 d.2)) ∈ pre) ∧
        ∃ a b₁ b₂, OpenCall pre t .read a (b₁ ++ b₂) ∧
          lockValue (a ++ (t, .call .read) :: b₁) = d := by
  have hadm : ∀ {h h' : List (T × Mark Op Res)}, writeCalls (h ++ h') < 2 ^ 30 →
      writeCalls h < 2 ^ 30 := by
    intro h h' hlt
    rw [writeCalls_append] at hlt
    omega
  obtain ⟨w, hw⟩ := Register.outline.sound hadm Register.holds_start hrun hw
  have hreplay : register.Replay tr w.val w.st := hw.hist ▸ hw.glob.replay
  refine ⟨hreplay.linearizable, ?_⟩
  rintro pre post t d rfl
  obtain ⟨o, a, b, hopen, b₁, b₂, s, s', st, rfl, hr, hpost⟩ := hreplay.effect_of_ret
  cases o with
  | write d1 d2 => exact absurd hpost.1 (by simp)
  | read =>
    obtain rfl : d = s := Option.some.inj hpost.1
    obtain rfl := (lockValue_of_replay hr).1
    refine ⟨?_, a, b₁, b₂, hopen, rfl⟩
    refine (lockValue_mem _).1.imp id fun ⟨u, hu⟩ => ⟨u, ?_⟩
    rw [hopen.1, ← List.cons_append, ← List.append_assoc]
    exact List.mem_append_left _ hu

/-- The theorem at a write followed by a read of the pair it stored. -/
theorem seqlock_linearizable_write_read : ∃ tr : List (Bool × Mark Op Res),
    Linearizable register tr ∧ lockValue tr = (3, 4) ∧ ∀ pre post t d,
      tr = pre ++ (t, .ret (some d)) :: post →
        (d = (0, 0) ∨ ∃ u, (u, .call (.write d.1 d.2)) ∈ pre) ∧
        ∃ a b₁ b₂, OpenCall pre t .read a (b₁ ++ b₂) ∧
          lockValue (a ++ (t, .call .read) :: b₁) = d := by
  have hstart : (program Bool).Run anyStep (start Bool) [] (start Bool) := .start
  have hwrite := hstart.solo true
    [.call (.write 3 4), .run, .run, .run, .run, .run, .run] ⟨2, 3, 4⟩ .idle
    [.call (.write 3 4), .lin, .ret none] rfl
  have hread := hwrite.solo false [.call .read, .run, .run, .run, .run, .run]
    ⟨2, 3, 4⟩ .idle [.call .read, .lin, .ret (some (3, 4))] rfl
  have := seqlock_linearizable hread (by decide)
  exact ⟨_, this.1, by decide, this.2⟩

end Cds.Seqlock
