/-
Doubly linked lists in a heap of nodes.

`Seg h a l b` says that the nodes listed in `l` (address and payload) are chained
both ways in the heap `h`, the first one pointing back to `a` and the last one
forward to `b`; `Seg h none l none` is a whole list, with `hd l none` its head
pointer and `lst none l` its tail pointer.

The rules are the ones a proof about pointer code needs: `seg_append` cuts a list
at a node, `Seg.congr` is the frame rule, and `linkLeft_spec` / `linkRight_spec` are the
effects of the two usual idioms `if (l) { l->next = n; n->prev = l; }` and
`if (r) { n->next = r; r->prev = n; }` on the segments around `n`.
-/
import Mathlib

namespace DoublyLinked

variable {β : Type*}

/-- A value with its two neighbours. -/
structure Node (β : Type*) where
  prev : Option ℕ
  next : Option ℕ
  val : β

abbrev Heap (β : Type*) := ℕ → Option (Node β)

namespace Heap

/-- Write through a pointer; a write through a dead pointer is lost. -/
def modify (h : Heap β) (p : ℕ) (f : Node β → Node β) : Heap β :=
  Function.update h p ((h p).map f)

def setNext (h : Heap β) (p : ℕ) (q : Option ℕ) : Heap β := h.modify p ({ · with next := q })

def setPrev (h : Heap β) (p : ℕ) (q : Option ℕ) : Heap β := h.modify p ({ · with prev := q })

@[simp] theorem modify_self (h : Heap β) (p : ℕ) (f : Node β → Node β) :
    h.modify p f p = (h p).map f := by simp [modify]

theorem modify_of_ne (h : Heap β) {p q : ℕ} (f : Node β → Node β) (hq : q ≠ p) :
    h.modify p f q = h q := by simp [modify, hq]

@[simp] theorem setNext_self (h : Heap β) (p : ℕ) (v : Option ℕ) :
    h.setNext p v p = (h p).map ({ · with next := v }) := by simp [setNext]

@[simp] theorem setPrev_self (h : Heap β) (p : ℕ) (v : Option ℕ) :
    h.setPrev p v p = (h p).map ({ · with prev := v }) := by simp [setPrev]

theorem setNext_of_ne (h : Heap β) {p q : ℕ} (v : Option ℕ) (hq : q ≠ p) :
    h.setNext p v q = h q := h.modify_of_ne _ hq

theorem setPrev_of_ne (h : Heap β) {p q : ℕ} (v : Option ℕ) (hq : q ≠ p) :
    h.setPrev p v q = h q := h.modify_of_ne _ hq

end Heap

/-- First address of a list, `b` when it is empty. -/
def hd : List (ℕ × β) → Option ℕ → Option ℕ
  | [], b => b
  | x :: _, _ => some x.1

/-- Last address of a list, `a` when it is empty. -/
def lst : Option ℕ → List (ℕ × β) → Option ℕ
  | a, [] => a
  | _, x :: l => lst (some x.1) l

/-- The nodes of `l` are chained in `h` between `a` and `b`. -/
def Seg (h : Heap β) : Option ℕ → List (ℕ × β) → Option ℕ → Prop
  | _, [], _ => True
  | a, x :: l, b => h x.1 = some ⟨a, hd l b, x.2⟩ ∧ Seg h (some x.1) l b

/-- The addresses of a list. -/
abbrev ptrs (l : List (ℕ × β)) : List ℕ := l.map Prod.fst

@[simp] theorem hd_nil (b : Option ℕ) : hd ([] : List (ℕ × β)) b = b := rfl

@[simp] theorem hd_cons (x : ℕ × β) (l : List (ℕ × β)) (b : Option ℕ) :
    hd (x :: l) b = some x.1 := rfl

theorem hd_append (l l' : List (ℕ × β)) (b : Option ℕ) : hd (l ++ l') b = hd l (hd l' b) := by
  cases l <;> rfl

@[simp] theorem lst_nil (a : Option ℕ) : lst a ([] : List (ℕ × β)) = a := rfl

@[simp] theorem lst_append (a : Option ℕ) (l l' : List (ℕ × β)) :
    lst a (l ++ l') = lst (lst a l) l' := by
  induction l generalizing a with
  | nil => rfl
  | cons x l ih => exact ih _

@[simp] theorem lst_singleton (a : Option ℕ) (x : ℕ × β) : lst a [x] = some x.1 := rfl

@[simp] theorem seg_nil (h : Heap β) (a b : Option ℕ) : Seg h a [] b := trivial

theorem seg_cons {h : Heap β} {a b : Option ℕ} {x : ℕ × β} {l : List (ℕ × β)} :
    Seg h a (x :: l) b ↔ h x.1 = some ⟨a, hd l b, x.2⟩ ∧ Seg h (some x.1) l b := Iff.rfl

theorem seg_singleton {h : Heap β} {a b : Option ℕ} {x : ℕ × β} :
    Seg h a [x] b ↔ h x.1 = some ⟨a, b, x.2⟩ := by simp [Seg]

theorem seg_append {h : Heap β} {a b : Option ℕ} {l l' : List (ℕ × β)} :
    Seg h a (l ++ l') b ↔ Seg h a l (hd l' b) ∧ Seg h (lst a l) l' b := by
  induction l generalizing a with
  | nil => simp
  | cons x l ih =>
    rw [List.cons_append, seg_cons, seg_cons, ih, hd_append, and_assoc]
    rfl

/-- Frame rule: a segment only depends on its own nodes. -/
theorem Seg.congr {h h' : Heap β} {l : List (ℕ × β)} :
    ∀ {a b : Option ℕ}, (∀ p ∈ ptrs l, h' p = h p) → Seg h a l b → Seg h' a l b := by
  induction l with
  | nil => exact fun _ _ => trivial
  | cons x l ih =>
    intro a b hp hs
    refine ⟨?_, ih (fun p hmem => hp p (by simp_all)) hs.2⟩
    rw [hp x.1 (by simp)]
    exact hs.1

/-- The last node of a segment. -/
theorem eq_nil_or_snoc (l : List (ℕ × β)) : l = [] ∨ ∃ l' x, l = l' ++ [x] := by
  rcases List.eq_nil_or_concat l with h | ⟨l', x, h⟩
  · exact .inl h
  · exact .inr ⟨l', x, by simpa using h⟩

/-! ### Redirecting the two ends -/

theorem Seg.setNext_last {h : Heap β} {a b : Option ℕ} {l : List (ℕ × β)} {x : ℕ × β}
    (v : Option ℕ) (hnd : (ptrs (l ++ [x])).Nodup) (hs : Seg h a (l ++ [x]) b) :
    Seg (h.setNext x.1 v) a (l ++ [x]) v := by
  obtain ⟨h1, h2⟩ := seg_append.mp hs
  have hx : x.1 ∉ ptrs l := by
    simp only [ptrs, List.map_append, List.map_cons, List.map_nil] at hnd
    exact fun hmem => (List.disjoint_of_nodup_append hnd) hmem (by simp)
  refine seg_append.mpr ⟨h1.congr fun p hp => h.setNext_of_ne v ?_, ?_⟩
  · exact fun hpx => hx (hpx ▸ hp)
  · rw [seg_singleton] at h2 ⊢
    simp [h2]

theorem Seg.setPrev_head {h : Heap β} {a b : Option ℕ} {l : List (ℕ × β)} {x : ℕ × β}
    (v : Option ℕ) (hnd : (ptrs (x :: l)).Nodup) (hs : Seg h a (x :: l) b) :
    Seg (h.setPrev x.1 v) v (x :: l) b := by
  have hx : x.1 ∉ ptrs l := by
    simp only [ptrs, List.map_cons, List.nodup_cons] at hnd
    exact hnd.1
  refine seg_cons.mpr ⟨by simp [hs.1], hs.2.congr fun p hp => h.setPrev_of_ne v ?_⟩
  exact fun hpx => hx (hpx ▸ hp)

/-- `if (p) p->next = q;` -/
def Heap.setNextIf (h : Heap β) (p q : Option ℕ) : Heap β :=
  match p with
  | none => h
  | some p => h.setNext p q

/-- `if (p) p->prev = q;` -/
def Heap.setPrevIf (h : Heap β) (p q : Option ℕ) : Heap β :=
  match p with
  | none => h
  | some p => h.setPrev p q

theorem setNextIf_spec {h : Heap β} {l : List (ℕ × β)} {b : Option ℕ} (v : Option ℕ)
    (hs : Seg h none l b) (hnd : (ptrs l).Nodup) :
    Seg (h.setNextIf (lst none l) v) none l v ∧
      ∀ p, p ∉ ptrs l → h.setNextIf (lst none l) v p = h p := by
  rcases eq_nil_or_snoc l with rfl | ⟨l, x, rfl⟩
  · exact ⟨trivial, fun p _ => rfl⟩
  · simp only [lst_append, lst_singleton, Heap.setNextIf]
    refine ⟨hs.setNext_last v hnd, fun p hp => h.setNext_of_ne v ?_⟩
    exact fun hx => hp (by simp [hx])

theorem setPrevIf_spec {h : Heap β} {l : List (ℕ × β)} {a : Option ℕ} (v : Option ℕ)
    (hs : Seg h a l none) (hnd : (ptrs l).Nodup) :
    Seg (h.setPrevIf (hd l none) v) v l none ∧
      ∀ p, p ∉ ptrs l → h.setPrevIf (hd l none) v p = h p := by
  cases l with
  | nil => exact ⟨trivial, fun p _ => rfl⟩
  | cons x l =>
    refine ⟨hs.setPrev_head v hnd, fun p hp => h.setPrev_of_ne v ?_⟩
    exact fun hx => hp (by simp [hx])

/-! ### Linking a node to its neighbours -/

/-- `if (left) { left->next = n; n->prev = left; }` -/
def linkLeft (h : Heap β) (left : Option ℕ) (n : ℕ) : Heap β :=
  match left with
  | none => h
  | some l => (h.setNext l (some n)).setPrev n (some l)

/-- `if (right) { n->next = right; right->prev = n; }` -/
def linkRight (h : Heap β) (n : ℕ) (right : Option ℕ) : Heap β :=
  match right with
  | none => h
  | some r => (h.setNext n (some r)).setPrev r (some n)

theorem linkLeft_spec {h : Heap β} {l : List (ℕ × β)} {b nx : Option ℕ} {n : ℕ} {v : β}
    (hs : Seg h none l b) (hnd : (ptrs l).Nodup) (hn : n ∉ ptrs l)
    (hnode : h n = some ⟨none, nx, v⟩) :
    Seg (linkLeft h (lst none l) n) none l (some n) ∧
      linkLeft h (lst none l) n n = some ⟨lst none l, nx, v⟩ ∧
      ∀ p, p ≠ n → p ∉ ptrs l → linkLeft h (lst none l) n p = h p := by
  rcases eq_nil_or_snoc l with rfl | ⟨l, x, rfl⟩
  · exact ⟨trivial, hnode, fun p _ _ => rfl⟩
  · have hxn : n ≠ x.1 := fun hx => hn (by simp [hx])
    simp only [lst_append, lst_singleton, linkLeft]
    refine ⟨?_, ?_, fun p hpn hp => ?_⟩
    · refine (hs.setNext_last (some n) hnd).congr fun p hp => Heap.setPrev_of_ne _ _ ?_
      exact fun hpn => hn (hpn ▸ hp)
    · rw [Heap.setPrev_self, Heap.setNext_of_ne _ _ hxn, hnode]
      rfl
    · have hpx : p ≠ x.1 := fun hx => hp (by simp [hx])
      rw [Heap.setPrev_of_ne _ _ hpn, Heap.setNext_of_ne _ _ hpx]

theorem linkRight_spec {h : Heap β} {l : List (ℕ × β)} {a pv : Option ℕ} {n : ℕ} {v : β}
    (hs : Seg h a l none) (hnd : (ptrs l).Nodup) (hn : n ∉ ptrs l)
    (hnode : h n = some ⟨pv, none, v⟩) :
    Seg (linkRight h n (hd l none)) (some n) l none ∧
      linkRight h n (hd l none) n = some ⟨pv, hd l none, v⟩ ∧
      ∀ p, p ≠ n → p ∉ ptrs l → linkRight h n (hd l none) p = h p := by
  cases l with
  | nil => exact ⟨trivial, hnode, fun p _ _ => rfl⟩
  | cons x l =>
    have hxn : x.1 ≠ n := fun hx => hn (by simp [hx])
    simp only [hd_cons, linkRight]
    refine ⟨?_, ?_, fun p hpn hp => ?_⟩
    · refine Seg.setPrev_head (some n) hnd (hs.congr fun p hp => Heap.setNext_of_ne _ _ ?_)
      exact fun hpn => hn (hpn ▸ hp)
    · rw [Heap.setPrev_of_ne _ _ hxn.symm, Heap.setNext_self, hnode]
      rfl
    · have hpx : p ≠ x.1 := fun hx => hp (by simp [hx])
      rw [Heap.setPrev_of_ne _ _ hpx, Heap.setNext_of_ne _ _ hpn]

end DoublyLinked
