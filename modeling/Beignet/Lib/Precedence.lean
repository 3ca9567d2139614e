/-
Order of execution: who comes before whom in a list, and who last wrote a location.

`Before l a b` says that `a` comes before `b` in `l`.  A sequence of `n` actions writes
locations; `LastBefore P m x` says that `x` is the last action before time `m` with `P`,
`FirstFrom P m x` that it is the first one from `m` on.

* `IsLast.succ`, `IsFirst.pred` — a table of last (first) writers is kept up to date by
  one assignment for each action;
* `related_of_writer` — a transitive relation that relates each action to the last
  writers of what it touches relates it to all earlier writers;
* `related_of_reader` — and, when it relates each reader to the next writers, each reader
  to all later writers;
* `exists_before` — without a path from `i` to `j`, some order that keeps the edges has `j`
  before `i`;
* `foldl_reordered` — an order in which only pairs that commute have changed places has the
  same effect.
-/
import Mathlib

namespace Precedence

/-! ### Positions in a list -/

section Before

variable {α : Type*} [DecidableEq α] {l : List α} {a b c : α}

def Before (l : List α) (a b : α) : Prop := l.idxOf a < l.idxOf b

instance : Decidable (Before l a b) := inferInstanceAs (Decidable (_ < _))

theorem Before.trans (hab : Before l a b) (hbc : Before l b c) : Before l a c :=
  Nat.lt_trans hab hbc

theorem Before.append (h : Before l a b) (hb : b ∈ l) (r : List α) : Before (l ++ r) a b := by
  have ha : a ∈ l :=
    List.idxOf_lt_length_iff.mp (Nat.lt_trans h (List.idxOf_lt_length_iff.mpr hb))
  unfold Before
  rwa [List.idxOf_append_of_mem ha, List.idxOf_append_of_mem hb]

theorem before_append_singleton (ha : a ∈ l) (hb : b ∉ l) : Before (l ++ [b]) a b := by
  have hlt := List.idxOf_lt_length_iff.mpr ha
  unfold Before
  rw [List.idxOf_append_of_mem ha, List.idxOf_append_of_notMem hb]
  omega

/-- Where no pair of a list stands the wrong way round, the other way is right. -/
theorem before_of_pairwise {Q : α → α → Prop} (h : l.Pairwise Q) (ha : a ∈ l) (hb : b ∈ l)
    (hab : a ≠ b) (hno : ¬ Q b a) : Before l a b := by
  have hla := List.idxOf_lt_length_iff.mpr ha
  have hlb := List.idxOf_lt_length_iff.mpr hb
  by_contra hlt
  have hne : l.idxOf b ≠ l.idxOf a := fun heq => hab ((List.idxOf_inj hb).mp heq).symm
  have hlt' : l.idxOf b < l.idxOf a := lt_of_le_of_ne (not_lt.mp hlt) hne
  have hQ := List.pairwise_iff_getElem.mp h _ _ hlb hla hlt'
  rw [List.getElem_idxOf, List.getElem_idxOf] at hQ
  exact hno hQ

end Before

/-! ### Orders that keep the edges of a graph -/

/-- What leads to `j` may all come first. -/
theorem exists_before {n : ℕ} {D : Fin n → Fin n → Prop} (hlt : ∀ {a b}, D a b → a < b)
    {i j : Fin n} (hno : ¬ Relation.ReflTransGen D i j) :
    ∃ l : List (Fin n), l.Perm (List.finRange n) ∧ (∀ a b, D a b → Before l a b) ∧
      Before l j i := by
  classical
  let p : Fin n → Bool := fun x => Relation.ReflTransGen D x j
  have hp : ∀ x, p x = true ↔ Relation.ReflTransGen D x j := fun x => decide_eq_true_iff
  let l := (List.finRange n).filter p ++ (List.finRange n).filter fun x => !p x
  have hperm : l.Perm (List.finRange n) := List.filter_append_perm p _
  have hmem : ∀ x, x ∈ l := fun x => hperm.mem_iff.mpr (List.mem_finRange x)
  have hsorted (q : Fin n → Bool) : ((List.finRange n).filter q).Pairwise (· < ·) :=
    (List.pairwise_lt_finRange n).filter q
  have hl : l.Pairwise fun x y => ¬ D y x ∧ ¬ (x = i ∧ y = j) := by
    refine List.pairwise_append.mpr ⟨?_, ?_, fun x hx y hy => ⟨fun hD => ?_, ?_⟩⟩
    · refine List.Pairwise.imp_of_mem (fun hx _ hxy => ⟨fun hD => absurd (hlt hD) hxy.asymm, ?_⟩)
        (hsorted p)
      rintro ⟨rfl, -⟩
      exact hno ((hp _).mp (List.mem_filter.mp hx).2)
    · refine List.Pairwise.imp_of_mem (fun _ hy hxy => ⟨fun hD => absurd (hlt hD) hxy.asymm, ?_⟩)
        (hsorted _)
      rintro ⟨-, rfl⟩
      have := (List.mem_filter.mp hy).2
      rw [Bool.not_eq_true', (hp _).mpr .refl] at this
      cases this
    · -- what leads to something in the first part is in it too
      have hx' := (hp x).mp (List.mem_filter.mp hx).2
      have hy' := (List.mem_filter.mp hy).2
      rw [Bool.not_eq_true', (hp y).mpr (.head hD hx')] at hy'
      cases hy'
    · rintro ⟨rfl, -⟩
      exact hno ((hp _).mp (List.mem_filter.mp hx).2)
  refine ⟨l, hperm, fun a b hD => ?_, ?_⟩
  · exact before_of_pairwise hl (hmem a) (hmem b) (hlt hD).ne fun h => h.1 hD
  · refine before_of_pairwise hl (hmem j) (hmem i) ?_ fun h => h.2 ⟨rfl, rfl⟩
    rintro rfl
    exact hno .refl

/-! ### Writers -/

section Writers

variable {n : ℕ} {P : Fin n → Prop} {m : ℕ} {x : Fin n}

def LastBefore (P : Fin n → Prop) (m : ℕ) (x : Fin n) : Prop :=
  P x ∧ x.val < m ∧ ∀ z, P z → z.val < m → z ≤ x

def FirstFrom (P : Fin n → Prop) (m : ℕ) (x : Fin n) : Prop :=
  P x ∧ m ≤ x.val ∧ ∀ z, P z → m ≤ z.val → x ≤ z

theorem exists_lastBefore {i : Fin n} (hi : P i) (him : i.val < m) : ∃ x, LastBefore P m x := by
  classical
  have hne : (Finset.univ.filter fun z : Fin n => P z ∧ z.val < m).Nonempty :=
    ⟨i, by simp [hi, him]⟩
  obtain ⟨x, hx, hmax⟩ := Finset.exists_max_image _ id hne
  obtain ⟨-, hPx, hxm⟩ := Finset.mem_filter.mp hx
  exact ⟨x, hPx, hxm, fun z hz hzm => hmax z (by simp [hz, hzm])⟩

theorem exists_firstFrom {j : Fin n} (hj : P j) (hjm : m ≤ j.val) : ∃ x, FirstFrom P m x := by
  classical
  have hne : (Finset.univ.filter fun z : Fin n => P z ∧ m ≤ z.val).Nonempty :=
    ⟨j, by simp [hj, hjm]⟩
  obtain ⟨x, hx, hmin⟩ := Finset.exists_min_image _ id hne
  obtain ⟨-, hPx, hxm⟩ := Finset.mem_filter.mp hx
  exact ⟨x, hPx, hxm, fun z hz hzm => hmin z (by simp [hz, hzm])⟩

/-- What a table of last writers has to hold at time `m`. -/
def IsLast (P : Fin n → Prop) (m : ℕ) : Option (Fin n) → Prop
  | some x => LastBefore P m x
  | none => ∀ z, P z → m ≤ z.val

/-- What a table of next writers has to hold at time `m`. -/
def IsFirst (P : Fin n → Prop) (m : ℕ) : Option (Fin n) → Prop
  | some x => FirstFrom P m x
  | none => ∀ z, P z → z.val < m

theorem isLast_zero : IsLast P 0 none := by
  intro z _
  exact Nat.zero_le _

theorem isFirst_end : IsFirst P n none := by
  intro z _
  exact z.isLt

theorem IsLast.succ {i : Fin n} {o : Option (Fin n)} [Decidable (P i)] (h : IsLast P i o) :
    IsLast P (i + 1) (if P i then some i else o) := by
  by_cases hi : P i
  · rw [if_pos hi]
    exact ⟨hi, Nat.lt_succ_self _, fun z _ hz => Fin.le_def.mpr (Nat.lt_succ_iff.mp hz)⟩
  · rw [if_neg hi]
    have hne : ∀ z, P z → z.val < i + 1 → z.val < i := by
      intro z hz hlt
      have : z ≠ i := fun heq => hi (heq ▸ hz)
      have := Fin.val_ne_of_ne this
      omega
    cases o with
    | none =>
      intro z hz
      by_contra hlt
      have := h z hz
      have := hne z hz (by omega)
      omega
    | some x =>
      obtain ⟨hx, hxi, hmax⟩ := h
      exact ⟨hx, by omega, fun z hz hlt => hmax z hz (hne z hz hlt)⟩

theorem IsFirst.pred {i : Fin n} {o : Option (Fin n)} [Decidable (P i)]
    (h : IsFirst P (i + 1) o) : IsFirst P i (if P i then some i else o) := by
  by_cases hi : P i
  · rw [if_pos hi]
    exact ⟨hi, le_rfl, fun z _ hz => Fin.le_def.mpr hz⟩
  · rw [if_neg hi]
    have hne : ∀ z, P z → i.val ≤ z.val → i + 1 ≤ z.val := by
      intro z hz hle
      have : z ≠ i := fun heq => hi (heq ▸ hz)
      have := Fin.val_ne_of_ne this
      omega
    cases o with
    | none =>
      intro z hz
      by_contra hle
      have := h z hz
      have := hne z hz (by omega)
      omega
    | some x =>
      obtain ⟨hx, hxi, hmin⟩ := h
      exact ⟨hx, by omega, fun z hz hle => hmin z hz (hne z hz hle)⟩

theorem IsLast.eq_of_lastBefore {o : Option (Fin n)} (h : IsLast P m o)
    (hx : LastBefore P m x) : o = some x := by
  cases o with
  | none =>
    have := h x hx.1
    have := hx.2.1
    omega
  | some y => exact congrArg some (le_antisymm (hx.2.2 y h.1 h.2.1) (h.2.2 x hx.1 hx.2.1))

theorem IsFirst.eq_of_firstFrom {o : Option (Fin n)} (h : IsFirst P m o)
    (hx : FirstFrom P m x) : o = some x := by
  cases o with
  | none =>
    have := h x hx.1
    have := hx.2.1
    omega
  | some y => exact congrArg some (le_antisymm (h.2.2 x hx.1 hx.2.1) (hx.2.2 y h.1 h.2.1))

variable {κ : Type*} {writes touches reads : Fin n → κ → Prop} {R : Fin n → Fin n → Prop}

theorem related_of_writer (htrans : ∀ {a b c}, R a b → R b c → R a c)
    (hwt : ∀ i k, writes i k → touches i k)
    (hlast : ∀ j k x, touches j k → LastBefore (writes · k) j x → R x j) {k : κ} :
    ∀ {i j : Fin n}, i < j → writes i k → touches j k → R i j := by
  intro i j
  induction j using WellFoundedLT.induction with
  | ind j ih =>
    intro hij hi hj
    obtain ⟨x, hx⟩ := exists_lastBefore (P := (writes · k)) hi hij
    have hxj := hlast j k x hj hx
    -- between `i` and the last writer `x` there is less to cross than up to `j`
    obtain heq | hlt := (hx.2.2 i hi hij).eq_or_lt
    · exact heq ▸ hxj
    · exact htrans (ih x hx.2.1 hlt hi (hwt x k hx.1)) hxj

theorem related_of_reader (htrans : ∀ {a b c}, R a b → R b c → R a c)
    (hwriter : ∀ {i j k}, i < j → writes i k → writes j k → R i j)
    (hfirst : ∀ i k x, reads i k → FirstFrom (writes · k) (i + 1) x → R i x)
    {k : κ} {i j : Fin n} (hij : i < j) (hi : reads i k) (hj : writes j k) : R i j := by
  obtain ⟨x, hx⟩ := exists_firstFrom (P := (writes · k)) hj (Nat.succ_le_of_lt hij)
  have hix := hfirst i k x hi hx
  obtain heq | hlt := (hx.2.2 j hj (Nat.succ_le_of_lt hij)).eq_or_lt
  · exact heq ▸ hix
  · exact htrans hix (hwriter hlt hx.1 hj)

end Writers

/-! ### Reordering -/

section Reordering

variable {α σ : Type*} {f : σ → α → σ}

theorem foldl_past {p : List α} {a : α} (h : ∀ x ∈ p, ∀ s, f (f s x) a = f (f s a) x) (s : σ) :
    f (p.foldl f s) a = p.foldl f (f s a) := by
  induction p generalizing s with
  | nil => rfl
  | cons x p ih =>
    rw [List.forall_mem_cons] at h
    rw [List.foldl_cons, List.foldl_cons, ih h.2, h.1]

/-- Another order has the same effect, if pairs that have changed places commute. -/
theorem foldl_reordered [LT α] {l l' : List α} (hl : l.Pairwise (· < ·)) (hperm : l'.Perm l)
    (hcomm : l'.Pairwise fun x y => y < x → ∀ s, f (f s x) y = f (f s y) x) (s : σ) :
    l'.foldl f s = l.foldl f s := by
  induction l generalizing l' s with
  | nil => rw [hperm.eq_nil]
  | cons a l ih =>
    -- what stands before the first action comes after it in the other order
    obtain ⟨p, q, rfl⟩ := List.append_of_mem (hperm.mem_iff.mpr List.mem_cons_self)
    have hrest : (p ++ q).Perm l := (List.perm_middle.symm.trans hperm).cons_inv
    obtain ⟨hlt, hl⟩ := List.pairwise_cons.mp hl
    have hpast : ∀ x ∈ p, ∀ s, f (f s x) a = f (f s a) x := fun x hx =>
      (List.pairwise_append.mp hcomm).2.2 x hx a List.mem_cons_self
        (hlt x (hrest.mem_iff.mp (List.mem_append_left q hx)))
    have hsub : (p ++ q).Sublist (p ++ a :: q) := (List.sublist_cons_self a q).append_left p
    rw [List.foldl_append, List.foldl_cons, foldl_past hpast, ← List.foldl_append,
      ih hl hrest (hcomm.sublist hsub), List.foldl_cons]

end Reordering

end Precedence
