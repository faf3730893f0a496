import CdsBenchmarks.Concurrent.Linearizability

/-! Sequential consistency of a history: the calls can be put in an order in which the object
could have executed them and which keeps the order of the calls of each thread. Unlike a
linearization it may put a call before one that returned earlier. An operation that leaves
the state alone may take effect on any version of the state that is not older than one its
thread has seen. -/

namespace Cds.Concurrent

variable {T S O R : Type*}

/-- `x` comes before `y` unless they are calls of different threads. -/
def InOrder (h : List (T × Mark O R)) (x y : ℕ × O × R) : Prop :=
  x.1 ≠ y.1 ∧ ∀ t, CallAt h x.1 t x.2.1 → CallAt h y.1 t y.2.1 → x.1 < y.1

/-- `L` lists calls of `h`, each named by its position, as the object could have executed
them: every call that returned is there with its result, and the calls of a thread are in
the order in which it made them. -/
structure IsSerialization (spec : ObjectSpec S O R) (h : List (T × Mark O R))
    (L : List (ℕ × O × R)) : Prop where
  called : ∀ x ∈ L, ∃ t, CallAt h x.1 t x.2.1
  complete : ∀ i j t o r, CallAt h i t o → Returns h i j t r → (i, o, r) ∈ L
  legal : ∃ s, spec.Steps (L.map Prod.snd) s
  order : L.Pairwise (InOrder h)

def SequentiallyConsistent (spec : ObjectSpec S O R) (h : List (T × Mark O R)) : Prop :=
  ∃ L, IsSerialization spec h L

theorem CallAt.unique {h : List (T × Mark O R)} {i : ℕ} {t u : T} {o o' : O} (hc : CallAt h i t o)
    (hc' : CallAt h i u o') : t = u ∧ o = o' := by
  simpa using hc.symm.trans hc'

theorem callAt_snoc_of_ne {h : List (T × Mark O R)} {i : ℕ} {t u : T} {o : O} {e : Mark O R}
    (he : ∀ o', e ≠ .call o') : CallAt (h ++ [(u, e)]) i t o ↔ CallAt h i t o := by
  simp [callAt_snoc, he]

/-! ## Versions -/

namespace ObjectSpec

/-- The operations lead from state `s` to `s'`. -/
def Moves (spec : ObjectSpec S O R) (s : S) (ops : List (O × R)) (s' : S) : Prop :=
  ∀ ops', spec.Steps ops' s → spec.Steps (ops' ++ ops) s'

variable {spec : ObjectSpec S O R} {s s' s'' : S} {ops : List (O × R)} {o : O} {r : R}

theorem Moves.nil : spec.Moves s [] s := fun ops' h => by simpa using h

theorem Moves.snoc (h : spec.Moves s ops s') (hp : spec.post s' o r s'') :
    spec.Moves s (ops ++ [(o, r)]) s'' := fun ops' h' => by
  simpa using (h ops' h').snoc hp

end ObjectSpec

/-- The states `state 0`, `state 1`, ... that an object has been in, up to `state size`, and
the calls that took effect on each: the one that led to it first. -/
structure Versions (S O R : Type*) where
  size : ℕ
  state : ℕ → S
  block : ℕ → List (ℕ × O × R)

namespace Versions

def initial (s : S) : Versions S O R := ⟨0, fun _ => s, fun _ => []⟩

def calls (V : Versions S O R) : List (ℕ × O × R) := (List.range (V.size + 1)).flatMap V.block

/-- The call `x` takes effect on version `k` and leaves it as it is. -/
def read (V : Versions S O R) (k : ℕ) (x : ℕ × O × R) : Versions S O R :=
  { V with block := Function.update V.block k (V.block k ++ [x]) }

/-- The call `x` leads to a new version. -/
def write (V : Versions S O R) (s : S) (x : ℕ × O × R) : Versions S O R :=
  ⟨V.size + 1, Function.update V.state (V.size + 1) s, Function.update V.block (V.size + 1) [x]⟩

variable {V : Versions S O R} {k n : ℕ} {s : S} {x y : ℕ × O × R}

theorem mem_calls : x ∈ V.calls ↔ ∃ k ≤ V.size, x ∈ V.block k := by
  simp only [calls, List.mem_flatMap, List.mem_range, Nat.lt_succ_iff]

theorem mem_block_read : y ∈ (V.read k x).block n ↔ y ∈ V.block n ∨ n = k ∧ y = x := by
  by_cases hn : n = k
  · subst hn
    simp [read]
  · simp [read, hn]

theorem mem_block_write (hn : n ≤ V.size + 1) :
    y ∈ (V.write s x).block n ↔ (n ≤ V.size ∧ y ∈ V.block n) ∨ n = V.size + 1 ∧ y = x := by
  rcases Nat.lt_or_eq_of_le hn with hlt | rfl
  · simp [write, Nat.ne_of_lt hlt, Nat.lt_succ_iff.mp hlt]
  · rw [show (V.write s x).block (V.size + 1) = [x] from Function.update_self .., List.mem_singleton]
    exact ⟨fun h => .inr ⟨rfl, h⟩, fun h => h.elim (fun h => absurd h.1 (Nat.not_succ_le_self _)) And.right⟩

/-- Each version comes from the one before it. -/
structure Legal (spec : ObjectSpec S O R) (V : Versions S O R) : Prop where
  first : V.state 0 = spec.init
  reads : spec.Moves (V.state 0) ((V.block 0).map Prod.snd) (V.state 0)
  next : ∀ k < V.size, spec.Moves (V.state k) ((V.block (k + 1)).map Prod.snd) (V.state (k + 1))

variable {spec : ObjectSpec S O R}

theorem Legal.steps (hl : Legal spec V) : ∃ s, spec.Steps (V.calls.map Prod.snd) s := by
  have key : ∀ n ≤ V.size,
      spec.Steps (((List.range (n + 1)).flatMap V.block).map Prod.snd) (V.state n) := by
    intro n
    induction n with
    | zero =>
      intro _
      have h := hl.reads [] (hl.first ▸ .nil)
      simpa using h
    | succ n ih =>
      intro hn
      have h := hl.next n hn _ (ih (by omega))
      rw [List.range_succ, List.flatMap_append, List.map_append]
      simpa using h
  exact ⟨_, key V.size (Nat.le_refl _)⟩

theorem Legal.read (hl : Legal spec V) (hp : spec.post (V.state k) x.2.1 x.2.2 (V.state k)) :
    Legal spec (V.read k x) := by
  refine ⟨hl.first, ?_, fun n hn => ?_⟩
  · by_cases hk : 0 = k
    · subst hk
      simpa [Versions.read] using hl.reads.snoc hp
    · simpa [Versions.read, hk] using hl.reads
  · by_cases hk : n + 1 = k
    · subst hk
      simpa [Versions.read] using (hl.next n hn).snoc hp
    · simpa [Versions.read, hk] using hl.next n hn

theorem Legal.write (hl : Legal spec V) (hp : spec.post (V.state V.size) x.2.1 x.2.2 s) :
    Legal spec (V.write s x) := by
  have hne : ∀ {n}, n ≤ V.size → n ≠ V.size + 1 := fun h => by omega
  refine ⟨by simpa [Versions.write] using hl.first, by simpa [Versions.write] using hl.reads,
    fun n hn => ?_⟩
  rcases Nat.lt_or_eq_of_le (Nat.lt_succ_iff.mp hn) with hlt | rfl
  · simpa [Versions.write, hne (Nat.le_of_lt hlt), Nat.ne_of_lt hlt] using hl.next n hlt
  · simpa [Versions.write] using (ObjectSpec.Moves.nil (s := V.state V.size)).snoc hp

end Versions

/-! ## The version rule -/

section Calls
variable {h h' : List (T × Mark O R)} {t u : T} {o : O} {r : R} {i : ℕ} {x y : ℕ × O × R}

theorem callAt_append_of_lt (hi : i < h.length) : CallAt (h ++ h') i t o ↔ CallAt h i t o := by
  rw [CallAt, CallAt, List.getElem?_append_left hi]

theorem InOrder.append (hxy : InOrder h x y) (hx : x.1 < h.length) (hy : y.1 < h.length) :
    InOrder (h ++ h') x y :=
  ⟨hxy.1, fun t hcx hcy => hxy.2 t ((callAt_append_of_lt hx).mp hcx) ((callAt_append_of_lt hy).mp hcy)⟩

/-- Thread `t` is in the call of `o` it made at `i`, and all its other calls have returned. -/
structure InCall (h : List (T × Mark O R)) (t : T) (o : O) (i : ℕ) : Prop where
  call : CallAt h i t o
  last : ∀ j o', CallAt h j t o' → j ≤ i
  returned : ∀ j o', CallAt h j t o' → j ≠ i → ∃ k r, j < k ∧ RetAt h k t r

/-- Where thread `t` stands in `h`, given the calls `L` that have taken effect. -/
def Stands (h : List (T × Mark O R)) (L : List (ℕ × O × R)) (t : T) : Status O R → Prop
  | .idle => ∀ i o, CallAt h i t o → ∃ k r, i < k ∧ RetAt h k t r
  | .pending o => ∃ i, InCall h t o i ∧ ∀ x ∈ L, x.1 ≠ i
  | .done o r => ∃ i, InCall h t o i ∧ (i, o, r) ∈ L

theorem InCall.snoc (hc : InCall h t o i) {e : Mark O R} (he : u ≠ t ∨ ∀ o', e ≠ .call o') :
    InCall (h ++ [(u, e)]) t o i := by
  have hcall : ∀ {j o'}, CallAt (h ++ [(u, e)]) j t o' ↔ CallAt h j t o' := by
    intro j o'
    rw [callAt_snoc, or_iff_left]
    rintro ⟨-, rfl, rfl⟩
    exact he.elim (fun h => h rfl) fun h => h o' rfl
  refine ⟨hcall.mpr hc.call, fun j o' hj => hc.last j o' (hcall.mp hj), fun j o' hj hne => ?_⟩
  obtain ⟨k, r, hk, hr⟩ := hc.returned j o' (hcall.mp hj) hne
  exact ⟨k, r, hk, retAt_snoc.mpr (.inl hr)⟩

/-- A step of another thread `u` that adds at most a call of `u` to those that have taken effect. -/
theorem Stands.other {L L' : List (ℕ × O × R)} {s : Status O R} (hs : Stands h L t s) (hu : u ≠ t)
    {e : Mark O R} (hL : ∀ x ∈ L, x ∈ L') (hL' : ∀ x ∈ L', x ∈ L ∨ CallAt h x.1 u x.2.1) :
    Stands (h ++ [(u, e)]) L' t s := by
  cases s with
  | idle =>
    intro i o hi
    rcases callAt_snoc.mp hi with hi | ⟨-, rfl, -⟩
    · obtain ⟨k, r, hk, hr⟩ := hs i o hi
      exact ⟨k, r, hk, retAt_snoc.mpr (.inl hr)⟩
    · exact absurd rfl hu
  | pending o =>
    obtain ⟨i, hi, hno⟩ := hs
    refine ⟨i, hi.snoc (.inl hu), fun x hx heq => ?_⟩
    rcases hL' x hx with hx | hx
    · exact hno x hx heq
    · exact hu (hi.call.unique (heq ▸ hx)).1.symm
  | done o r =>
    obtain ⟨i, hi, hmem⟩ := hs
    exact ⟨i, hi.snoc (.inl hu), hL _ hmem⟩

end Calls

/-- The versions list calls of `h`, in the order of each thread. -/
structure Placed (h : List (T × Mark O R)) (V : Versions S O R) : Prop where
  called : ∀ k ≤ V.size, ∀ x ∈ V.block k, ∃ t, CallAt h x.1 t x.2.1
  inside : ∀ k ≤ V.size, (V.block k).Pairwise (InOrder h)
  across : ∀ j k, j < k → k ≤ V.size → ∀ x ∈ V.block j, ∀ y ∈ V.block k, InOrder h x y

/-- The calls of `t` that have taken effect did so on versions up to `k`. -/
def UpTo (h : List (T × Mark O R)) (V : Versions S O R) (t : T) (k : ℕ) : Prop :=
  ∀ n ≤ V.size, ∀ x ∈ V.block n, CallAt h x.1 t x.2.1 → n ≤ k

theorem UpTo.mono {h : List (T × Mark O R)} {V : Versions S O R} {t : T} {k k' : ℕ}
    (hu : UpTo h V t k) (hk : k ≤ k') : UpTo h V t k' :=
  fun n hn x hx hc => Nat.le_trans (hu n hn x hx hc) hk

theorem UpTo.read {h : List (T × Mark O R)} {V : Versions S O R} {t u : T} {o : O} {r : R}
    {i k n : ℕ} (hu : UpTo h V u k) (hc : CallAt h i t o) (hn : u = t → n ≤ k) :
    UpTo h (V.read n (i, o, r)) u k := by
  intro m hm x hx hcx
  rcases Versions.mem_block_read.mp hx with hx | ⟨rfl, rfl⟩
  · exact hu m hm x hx hcx
  · exact hn (hcx.unique hc).1

theorem UpTo.write {h : List (T × Mark O R)} {V : Versions S O R} {t u : T} {o : O} {r : R}
    {i k : ℕ} {s : S} (hu : UpTo h V u k) (hc : CallAt h i t o) (hn : u = t → V.size + 1 ≤ k) :
    UpTo h (V.write s (i, o, r)) u k := by
  intro m hm x hx hcx
  rcases (Versions.mem_block_write hm).mp hx with ⟨hm, hx⟩ | ⟨rfl, rfl⟩
  · exact hu m hm x hx hcx
  · exact hn (hcx.unique hc).1

namespace Placed
variable {h h' : List (T × Mark O R)} {V : Versions S O R} {t : T} {o : O} {r : R} {i k : ℕ} {s : S}

theorem lt (hp : Placed h V) {x : ℕ × O × R} (hk : k ≤ V.size) (hx : x ∈ V.block k) :
    x.1 < h.length := (hp.called k hk x hx).choose_spec.lt

theorem append (hp : Placed h V) : Placed (h ++ h') V := by
  refine ⟨fun k hk x hx => ?_, fun k hk => ?_, fun j k hjk hk x hx y hy => ?_⟩
  · exact (hp.called k hk x hx).imp fun t ht => (callAt_append_of_lt (hp.lt hk hx)).mpr ht
  · exact (hp.inside k hk).imp_of_mem fun hx hy hxy => hxy.append (hp.lt hk hx) (hp.lt hk hy)
  · have hj : j ≤ V.size := Nat.le_trans (Nat.le_of_lt hjk) hk
    exact (hp.across j k hjk hk x hx y hy).append (hp.lt hj hx) (hp.lt hk hy)

theorem upTo_append (hp : Placed h V) (hu : UpTo h V t k) : UpTo (h ++ h') V t k :=
  fun n hn x hx hc => hu n hn x hx ((callAt_append_of_lt (hp.lt hn hx)).mp hc)

theorem inOrder (hi : InCall h t o i) (hno : ∀ x ∈ V.calls, x.1 ≠ i) (hk : k ≤ V.size)
    {x : ℕ × O × R} (hx : x ∈ V.block k) : InOrder h x (i, o, r) := by
  have hne := hno x (Versions.mem_calls.mpr ⟨k, hk, hx⟩)
  refine ⟨hne, fun u hcx hcy => Nat.lt_of_le_of_ne ?_ hne⟩
  obtain ⟨rfl, -⟩ := hi.call.unique hcy
  exact hi.last _ _ hcx

theorem read (hp : Placed h V) (hi : InCall h t o i) (hno : ∀ x ∈ V.calls, x.1 ≠ i)
    (hup : UpTo h V t k) : Placed h (V.read k (i, o, r)) := by
  refine ⟨fun n hn x hx => ?_, fun n hn => ?_, fun m n hmn hn x hx y hy => ?_⟩
  · rcases Versions.mem_block_read.mp hx with hx | ⟨-, rfl⟩
    · exact hp.called n hn x hx
    · exact ⟨t, hi.call⟩
  · by_cases hnk : n = k
    · subst hnk
      simp only [Versions.read, Function.update_self]
      refine List.pairwise_append.mpr ⟨hp.inside n hn, List.pairwise_singleton .., fun x hx y hy => ?_⟩
      rw [List.mem_singleton.mp hy]
      exact inOrder hi hno hn hx
    · simpa [Versions.read, hnk] using hp.inside n hn
  · have hm : m ≤ V.size := Nat.le_trans (Nat.le_of_lt hmn) hn
    rcases Versions.mem_block_read.mp hx with hx' | ⟨rfl, rfl⟩ <;>
      rcases Versions.mem_block_read.mp hy with hy' | ⟨rfl, rfl⟩
    · exact hp.across m n hmn hn x hx' y hy'
    · exact inOrder hi hno hm hx'
    · refine ⟨Ne.symm (hno y (Versions.mem_calls.mpr ⟨n, hn, hy'⟩)), fun u hcx hcy => ?_⟩
      obtain ⟨rfl, -⟩ := hi.call.unique hcx
      exact absurd (hup n hn y hy' hcy) (Nat.not_le_of_lt hmn)
    · exact absurd hmn (Nat.lt_irrefl _)

theorem write (hp : Placed h V) (hi : InCall h t o i) (hno : ∀ x ∈ V.calls, x.1 ≠ i) :
    Placed h (V.write s (i, o, r)) := by
  refine ⟨fun n hn x hx => ?_, fun n hn => ?_, fun m n hmn hn x hx y hy => ?_⟩
  · rcases (Versions.mem_block_write hn).mp hx with ⟨hn', hx⟩ | ⟨-, rfl⟩
    · exact hp.called n hn' x hx
    · exact ⟨t, hi.call⟩
  · rcases Nat.lt_or_eq_of_le hn with hlt | rfl
    · have hne : n ≠ V.size + 1 := Nat.ne_of_lt hlt
      simpa [Versions.write, hne] using hp.inside n (Nat.lt_succ_iff.mp hlt)
    · simp [Versions.write]
  · rcases (Versions.mem_block_write (Nat.le_trans (Nat.le_of_lt hmn) hn)).mp hx with
      ⟨hm, hx⟩ | ⟨rfl, -⟩
    · rcases (Versions.mem_block_write hn).mp hy with ⟨hn', hy⟩ | ⟨-, rfl⟩
      · exact hp.across m n hmn hn' x hx y hy
      · exact inOrder hi hno hm hx
    · exact absurd hn (Nat.not_le_of_lt hmn)

end Placed

/-- The calls of `h` that have taken effect, by the version each took effect on. -/
structure Serial (spec : ObjectSpec S O R) (h : List (T × Mark O R)) (V : Versions S O R)
    (st : T → Status O R) : Prop where
  legal : V.Legal spec
  placed : Placed h V
  complete : ∀ i j t o r, CallAt h i t o → Returns h i j t r → (i, o, r) ∈ V.calls
  stands : ∀ t, Stands h V.calls t (st t)

namespace Serial
variable {spec : ObjectSpec S O R} {h : List (T × Mark O R)} {V : Versions S O R}
  {st : T → Status O R} {t : T} {o : O} {r : R} {k : ℕ} {s : S}

theorem nil (spec : ObjectSpec S O R) :
    Serial spec ([] : List (T × Mark O R)) (.initial spec.init) fun _ => .idle where
  legal := ⟨rfl, .nil, fun _ hk => absurd hk (Nat.not_lt_zero _)⟩
  placed := ⟨by simp [Versions.initial], by simp [Versions.initial], by simp [Versions.initial]⟩
  complete i j t o r hi := absurd hi.lt (by simp)
  stands t i o hi := absurd hi.lt (by simp)

theorem complete_snoc (hs : Serial spec h V st) {e : Mark O R} (he : ∀ r', e ≠ .ret r') {i j : ℕ}
    {u : T} (hc : CallAt (h ++ [(t, e)]) i u o) (hr : Returns (h ++ [(t, e)]) i j u r) :
    (i, o, r) ∈ V.calls := by
  rcases returns_snoc.mp hr with hr | ⟨-, -, -, rfl, -⟩
  · have hlt : i < h.length := Nat.lt_trans hr.1 hr.2.1.lt
    exact hs.complete i j u o r ((callAt_append_of_lt hlt).mp hc) hr
  · exact absurd rfl (he r)

variable [DecidableEq T]

theorem call (hs : Serial spec h V st) (hst : st t = .idle) (o : O) :
    Serial spec (h ++ [(t, .call o)]) V (Function.update st t (.pending o)) := by
  refine ⟨hs.legal, hs.placed.append, fun i j u o' r hc hr => hs.complete_snoc (by simp) hc hr,
    fun u => ?_⟩
  by_cases hu : u = t
  · subst hu
    have hidle := hs.stands u
    rw [hst] at hidle
    rw [Function.update_self]
    refine ⟨h.length, ⟨callAt_snoc.mpr (.inr ⟨rfl, rfl, rfl⟩), fun j o' hj => ?_, fun j o' hj hne => ?_⟩,
      fun x hx => ?_⟩
    · exact Nat.lt_succ_iff.mp (by simpa using hj.lt)
    · rcases callAt_snoc.mp hj with hj | ⟨rfl, -⟩
      · obtain ⟨k, r, hk, hr⟩ := hidle j o' hj
        exact ⟨k, r, hk, retAt_snoc.mpr (.inl hr)⟩
      · exact absurd rfl hne
    · obtain ⟨k, hk, hx⟩ := Versions.mem_calls.mp hx
      exact Nat.ne_of_lt (hs.placed.lt hk hx)
  · rw [Function.update_of_ne hu]
    exact (hs.stands u).other (Ne.symm hu) (fun _ hx => hx) fun _ hx => .inl hx

theorem stands_effect (hs : Serial spec h V st) {i : ℕ} (hi : InCall h t o i) {V' : Versions S O R}
    (hV : ∀ x, x ∈ V'.calls ↔ x ∈ V.calls ∨ x = (i, o, r)) (u : T) :
    Stands (h ++ [(t, .lin)]) V'.calls u (Function.update st t (.done o r) u) := by
  by_cases hu : u = t
  · subst hu
    rw [Function.update_self]
    exact ⟨i, hi.snoc (.inr (by simp)), (hV _).mpr (.inr rfl)⟩
  · rw [Function.update_of_ne hu]
    refine (hs.stands u).other (Ne.symm hu) (fun x hx => (hV x).mpr (.inl hx)) fun x hx => ?_
    rcases (hV x).mp hx with hx | rfl
    · exact .inl hx
    · exact .inr hi.call

/-- The call takes effect on a version that is not older than any its thread acted on. -/
theorem read (hs : Serial spec h V st) (hst : st t = .pending o) (hk : k ≤ V.size)
    (hup : UpTo h V t k) (hp : spec.post (V.state k) o r (V.state k)) :
    ∃ i, CallAt h i t o ∧
      Serial spec (h ++ [(t, .lin)]) (V.read k (i, o, r)) (Function.update st t (.done o r)) := by
  have hpend := hs.stands t
  rw [hst] at hpend
  obtain ⟨i, hi, hno⟩ := hpend
  have hV : ∀ x, x ∈ (V.read k (i, o, r)).calls ↔ x ∈ V.calls ∨ x = (i, o, r) := by
    intro x
    simp only [Versions.mem_calls, Versions.mem_block_read]
    constructor
    · rintro ⟨n, hn, hx | ⟨-, rfl⟩⟩
      · exact .inl ⟨n, hn, hx⟩
      · exact .inr rfl
    · rintro (⟨n, hn, hx⟩ | rfl)
      · exact ⟨n, hn, .inl hx⟩
      · exact ⟨k, hk, .inr ⟨rfl, rfl⟩⟩
  refine ⟨i, hi.call, hs.legal.read hp, (hs.placed.read hi hno hup).append, fun j n u o' r' hc hr => ?_,
    hs.stands_effect hi hV⟩
  exact (hV _).mpr (.inl (hs.complete_snoc (by simp) hc hr))

/-- The call takes effect on the last version and leads to a new one. -/
theorem write (hs : Serial spec h V st) (hst : st t = .pending o)
    (hp : spec.post (V.state V.size) o r s) :
    ∃ i, CallAt h i t o ∧
      Serial spec (h ++ [(t, .lin)]) (V.write s (i, o, r)) (Function.update st t (.done o r)) := by
  have hpend := hs.stands t
  rw [hst] at hpend
  obtain ⟨i, hi, hno⟩ := hpend
  have hV : ∀ x, x ∈ (V.write s (i, o, r)).calls ↔ x ∈ V.calls ∨ x = (i, o, r) := by
    intro x
    simp only [Versions.mem_calls]
    constructor
    · rintro ⟨n, hn, hx⟩
      rcases (Versions.mem_block_write hn).mp hx with ⟨hn, hx⟩ | ⟨-, rfl⟩
      · exact .inl ⟨n, hn, hx⟩
      · exact .inr rfl
    · rintro (⟨n, hn, hx⟩ | rfl)
      · have hn' : n ≤ V.size + 1 := Nat.le_succ_of_le hn
        exact ⟨n, hn', (Versions.mem_block_write hn').mpr (.inl ⟨hn, hx⟩)⟩
      · exact ⟨V.size + 1, Nat.le_refl _, (Versions.mem_block_write (Nat.le_refl _)).mpr (.inr ⟨rfl, rfl⟩)⟩
  refine ⟨i, hi.call, hs.legal.write hp, (hs.placed.write hi hno).append, fun j n u o' r' hc hr => ?_,
    hs.stands_effect hi hV⟩
  exact (hV _).mpr (.inl (hs.complete_snoc (by simp) hc hr))

theorem ret (hs : Serial spec h V st) (hst : st t = .done o r) :
    Serial spec (h ++ [(t, .ret r)]) V (Function.update st t .idle) := by
  have hdone := hs.stands t
  rw [hst] at hdone
  obtain ⟨i₀, hi₀, hmem⟩ := hdone
  have hcall : ∀ {i u o'}, CallAt (h ++ [(t, Mark.ret r)]) i u o' → CallAt h i u o' :=
    fun hc => (callAt_snoc_of_ne (by simp)).mp hc
  refine ⟨hs.legal, hs.placed.append, fun i j u o' r' hc hr => ?_, fun u => ?_⟩
  · rcases returns_snoc.mp hr with hr | ⟨-, -, rfl, he, hno⟩
    · exact hs.complete i j u o' r' (hcall hc) hr
    · obtain rfl : i = i₀ := by
        by_contra hne
        obtain ⟨k, r'', hk, hkr⟩ := hi₀.returned i o' (hcall hc) hne
        exact hno k hk r'' hkr
      obtain ⟨-, rfl⟩ := hi₀.call.unique (hcall hc)
      cases he
      exact hmem
  · by_cases hu : u = t
    · subst hu
      rw [Function.update_self]
      intro i o' hi
      by_cases hne : i = i₀
      · exact ⟨h.length, r, hne ▸ hi₀.call.lt, retAt_snoc.mpr (.inr ⟨rfl, rfl, rfl⟩)⟩
      · obtain ⟨k, r', hk, hkr⟩ := hi₀.returned i o' (hcall hi) hne
        exact ⟨k, r', hk, retAt_snoc.mpr (.inl hkr)⟩
    · rw [Function.update_of_ne hu]
      exact (hs.stands u).other (Ne.symm hu) (fun _ hx => hx) fun _ hx => .inl hx

omit [DecidableEq T] in
/-- **The version rule.** -/
theorem sequentiallyConsistent (hs : Serial spec h V st) : SequentiallyConsistent spec h := by
  refine ⟨V.calls, fun x hx => ?_, hs.complete, hs.legal.steps, ?_⟩
  · obtain ⟨k, hk, hx⟩ := Versions.mem_calls.mp hx
    exact hs.placed.called k hk x hx
  · refine List.pairwise_flatMap.mpr ⟨fun k hk => hs.placed.inside k ?_, ?_⟩
    · simpa [Nat.lt_succ_iff] using hk
    · refine List.pairwise_lt_range.imp_of_mem fun {j k} _ hk hjk => ?_
      exact hs.placed.across j k hjk (by simpa [Nat.lt_succ_iff] using hk)

end Serial

end Cds.Concurrent
