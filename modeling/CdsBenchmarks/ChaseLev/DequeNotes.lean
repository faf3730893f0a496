import CdsBenchmarks.ChaseLev.DequeShape
import CdsBenchmarks.Concurrent.Observe

/-! What runs of the deque are annotated with: the values stored for an index, and the indices
that takes and steals remove. -/

namespace Cds.ChaseLev
open Concurrent Program

variable {T : Type*}

/-- What a run is annotated with. -/
inductive Note
  /-- A push stores `x` for index `i`. -/
  | put (i : Size) (x : CInt)
  /-- A take or a steal removes index `i` and is about to return `x`. -/
  | got (i : Size) (x : CInt)
deriving DecidableEq, Repr

def note (a : Act) (m : Mem) (l : Pc) : List Note :=
  match a, l with
  | .run, .pushBuffer x b _ _ => [.put b x]
  | .run, .takeBuffer b a t sz => if t = b then [] else [.got b (m.buffer a (intSlot b sz))]
  | .run, .takeCas b t x => if m.top = t then [.got b x] else []
  | .run, .stealCas t x => if m.top = t then [.got t x] else []
  | _, _ => []

variable (T) in
def noted : Program T Mem Pc Act (Event ⊕ Note) := (program T).observe fun _ => note

/-- The value last stored for index `i`. -/
def lastPut (ns : List (T × Note)) (i : ℕ) : Option CInt :=
  (ns.filterMap fun x => match x.2 with
    | .put j v => if j.toNat = i then some v else none
    | .got _ _ => none).getLast?

def LastNote (ns : List (T × Note)) (t : T) (n : Note) : Prop :=
  ∃ q, ns[q]? = some (t, n) ∧ Latest ns t q

/-- Every take and steal that succeeds returns the value stored for the index it removes. -/
structure Explained (tr : List (T × (Event ⊕ Note))) : Prop where
  got : ∀ p t i x, (notes tr)[p]? = some (t, .got i x) → lastPut ((notes tr).take p) i.toNat = some x
  returned : ∀ p t x, tr[p]? = some (t, .inl (.ret (some x))) → x ≠ EMPTY → x ≠ ABORT →
    ∃ i, LastNote (notes (tr.take p)) t (.got i x)

/-- Moreover the slots of the indices present, under the size there is, have been filled. -/
structure Transparent (tr : List (T × (Event ⊕ Note))) (m : Mem) : Prop extends Explained tr where
  filled : ∀ i, m.top.toNat ≤ i → i < m.bottom.toNat → lastPut (notes tr) i = some (slot m m.array i)

/-- A new size stored for the array in use leaves every element in its slot. -/
def KeepsSlots (m : Mem) : Pc → Prop
  | .resizeNewSize _ _ _ size newA _ _ => newA = some m.array → ∀ i, m.top.toNat ≤ i →
      i < m.bottom.toNat → i % (size <<< 1).toNat = i % size.toNat
  | _ => True

def inPlace [DecidableEq T] (owner : T) (c : Config T Mem Pc) (t : T) (a : Act) : Prop :=
  byRole owner c t a ∧ KeepsSlots c.mem (c.loc t)

/-! ## The notes -/

theorem history_append (h h' : List (T × Event)) : history (h ++ h') = history h ++ history h' :=
  List.filterMap_append

theorem history_snoc (h : List (T × Event)) (t : T) {e : Event} {m : Mark Op (Option CInt)}
    (he : e.mark = some m) : history (h ++ [(t, e)]) = history h ++ [(t, m)] := by
  rw [history_append]
  simp [history, he]

theorem resizes_append (h h' : List (T × Event)) : resizes (h ++ h') = resizes h + resizes h' :=
  occurrences_append ..

theorem PushFirst.of_append {owner : T} {h h' : List (T × Event)} (hp : PushFirst owner (h ++ h')) :
    PushFirst owner h := fun pre post heq => hp pre (post ++ h') (by simp [heq])

section Notes
variable {ns ns' : List (T × Note)} {t u : T} {i : ℕ}

theorem lastPut_append : lastPut (ns ++ ns') i = (lastPut ns' i).or (lastPut ns i) := by
  simp [lastPut, List.getLast?_append]

theorem lastPut_put (b : Size) (x : CInt) :
    lastPut (ns ++ [(t, .put b x)]) i = if b.toNat = i then some x else lastPut ns i := by
  rw [lastPut_append]
  by_cases hi : b.toNat = i <;> simp [lastPut, hi]

theorem lastPut_got (b : Size) (x : CInt) : lastPut (ns ++ [(t, .got b x)]) i = lastPut ns i := by
  rw [lastPut_append]
  simp [lastPut]

theorem LastNote.other {n : Note} (h : LastNote ns u n) (hu : u ≠ t) (ks : List Note) :
    LastNote (ns ++ emit t ks) u n := by
  obtain ⟨q, hq, hlatest⟩ := h
  exact ⟨q, by rw [List.getElem?_append_left hlatest.1, hq], hlatest.other hu ks⟩

theorem lastNote_snoc (n : Note) : LastNote (ns ++ [(t, n)]) t n :=
  ⟨ns.length, by simp, latest_snoc t n⟩

end Notes

namespace Explained
variable {tr : List (T × (Event ⊕ Note))} {t : T} {es : List Event} {ks : List Note}

theorem nil : Explained ([] : List (T × (Event ⊕ Note))) := by
  constructor <;> simp [notes]

/-- A step that returns nothing. -/
theorem append (h : Explained tr) (hes : ∀ r, .ret r ∉ es)
    (hks : ∀ i x, (Note.got i x) ∈ ks → ks = [.got i x] ∧ lastPut (notes tr) i.toNat = some x) :
    Explained (tr ++ emit t (es.map Sum.inl ++ ks.map Sum.inr)) := by
  constructor
  · intro p u i x hp
    rw [notes_append, notes_emit] at hp ⊢
    by_cases hlt : p < (notes tr).length
    · rw [List.getElem?_append_left hlt] at hp
      rw [List.take_append_of_le_length (Nat.le_of_lt hlt)]
      exact h.got p u i x hp
    · have hmem := List.getElem?_append_right (Nat.le_of_not_lt hlt) ▸ hp
      obtain ⟨k, hk, heq⟩ := List.mem_map.mp (List.mem_of_getElem? hmem)
      cases heq
      obtain ⟨rfl, hput⟩ := hks i x hk
      have hlen := lt_of_getElem? hp
      rw [List.length_append, emit_cons, emit_nil, List.length_singleton] at hlen
      rwa [List.take_left' (by omega)]
  · intro p u x hp hx hx'
    by_cases hlt : p < tr.length
    · rw [List.getElem?_append_left hlt] at hp
      rw [List.take_append_of_le_length (Nat.le_of_lt hlt)]
      exact h.returned p u x hp hx hx'
    · have hmem := List.mem_of_getElem? (List.getElem?_append_right (Nat.le_of_not_lt hlt) ▸ hp)
      simp only [emit, List.map_append, List.map_map, List.mem_append, List.mem_map,
        Function.comp_apply,
        Prod.mk.injEq, Sum.inl.injEq, reduceCtorEq, and_false, exists_false, or_false] at hmem
      obtain ⟨e, he, -, rfl⟩ := hmem
      exact absurd he (hes _)

theorem ret (h : Explained tr) {r : Option CInt}
    (hr : ∀ x, r = some x → x ≠ EMPTY → x ≠ ABORT → ∃ i, LastNote (notes tr) t (.got i x)) :
    Explained (tr ++ [(t, .inl (.ret r))]) := by
  have hnotes : notes (tr ++ [(t, Sum.inl (Event.ret r))]) = notes tr := by simp [notes]
  constructor
  · rw [hnotes]
    exact h.got
  · intro p u x hp hx hx'
    rcases (getElem?_snoc ..).mp hp with hp | ⟨rfl, heq⟩
    · rw [List.take_append_of_le_length (Nat.le_of_lt (lt_of_getElem? hp))]
      exact h.returned p u x hp hx hx'
    · cases heq
      rw [List.take_left' rfl]
      exact hr x rfl hx hx'

end Explained

end Cds.ChaseLev
