/-
Facts about lists used as tables and as loops: sums over the entries of a table when
one entry is replaced, the invariant rules of a loop over `0, …, n - 1`, upwards
and downwards, where the pieces of a list of lists lie, and lists whose entries correspond.
-/
import Mathlib

namespace Lists

variable {τ : Type*}

/-- Replacing entry `i` of a table changes a sum over the table by the difference
of the two entries. -/
theorem sum_map_set {M : Type*} [AddCommMonoid M] (f : τ → M) {l : List τ} {i : ℕ} {x : τ} (y : τ)
    (h : l[i]? = some x) : ((l.set i y).map f).sum + f x = (l.map f).sum + f y := by
  induction l generalizing i with
  | nil => simp at h
  | cons a l ih =>
    rcases i with _ | i
    · simp only [List.getElem?_cons_zero, Option.some_inj] at h
      subst h
      simp only [List.set_cons_zero, List.map_cons, List.sum_cons]
      ac_rfl
    · simp only [List.getElem?_cons_succ] at h
      simp only [List.set_cons_succ, List.map_cons, List.sum_cons]
      rw [add_assoc, ih h, add_assoc]

/-- A sum drops when every summand may only drop and the replaced one does. -/
theorem sum_map_set_lt {f g : τ → ℕ} (hfg : ∀ z, f z ≤ g z) {l : List τ} {i : ℕ} {x y : τ}
    (h : l[i]? = some x) (hlt : f y < g x) : ((l.set i y).map f).sum < (l.map g).sum := by
  induction l generalizing i with
  | nil => simp at h
  | cons a l ih =>
    rcases i with _ | i
    · simp only [List.getElem?_cons_zero, Option.some_inj] at h
      subst h
      have := List.sum_le_sum fun z (_ : z ∈ l) => hfg z
      simp only [List.set_cons_zero, List.map_cons, List.sum_cons]
      omega
    · simp only [List.getElem?_cons_succ] at h
      have := ih h
      have := hfg a
      simp only [List.set_cons_succ, List.map_cons, List.sum_cons]
      omega

/-- Invariant rule of a loop over the elements of a list. -/
theorem foldl_invariant {σ : Type*} {f : σ → τ → σ} {I : σ → Prop} {l : List τ}
    (hstep : ∀ x ∈ l, ∀ s, I s → I (f s x)) {s : σ} (h : I s) : I (l.foldl f s) := by
  induction l generalizing s with
  | nil => exact h
  | cons x l ih =>
    exact ih (fun y hy => hstep y (List.mem_cons_of_mem _ hy)) (hstep x List.mem_cons_self s h)

/-- Invariant rule of a loop over `0, …, n - 1`: the invariant may mention how many
rounds are done. -/
theorem foldl_finRange {σ : Type*} {n : ℕ} {f : σ → Fin n → σ} {I : ℕ → σ → Prop}
    (hstep : ∀ (i : Fin n) s, I i s → I (i + 1) (f s i)) {s : σ} (h : I 0 s) :
    I n ((List.finRange n).foldl f s) := by
  have key : ∀ m ≤ n, I m (((List.finRange n).take m).foldl f s) := by
    intro m
    induction m with
    | zero => simpa using h
    | succ m ih =>
      intro hm
      have hlt : m < (List.finRange n).length := by simpa using Nat.lt_of_succ_le hm
      rw [List.take_succ_eq_append_getElem hlt, List.foldl_append]
      simpa using hstep ⟨m, hm⟩ _ (ih (by omega))
  have hall := key n le_rfl
  rwa [List.take_of_length_le (by simp)] at hall

/-- The same downwards: the invariant may mention from where on the rounds are done. -/
theorem foldl_reverse_finRange {σ : Type*} {n : ℕ} {f : σ → Fin n → σ} {I : ℕ → σ → Prop}
    (hstep : ∀ (i : Fin n) s, I (i + 1) s → I i (f s i)) {s : σ} (h : I n s) :
    I 0 ((List.finRange n).reverse.foldl f s) := by
  have key : ∀ m ≤ n, I (n - m) (((List.finRange n).reverse.take m).foldl f s) := by
    intro m
    induction m with
    | zero => simpa using h
    | succ m ih =>
      intro hm
      have hlt : m < (List.finRange n).reverse.length := by simpa using Nat.lt_of_succ_le hm
      rw [List.take_succ_eq_append_getElem hlt, List.foldl_append]
      have hstep' := hstep ⟨n - 1 - m, by omega⟩ _
        (by rw [show n - 1 - m + 1 = n - m by omega]; exact ih (by omega))
      simpa [show n - 1 - m = n - (m + 1) by omega] using hstep'
  have hall := key n le_rfl
  rwa [List.take_of_length_le (by simp), Nat.sub_self] at hall

/-! ### Nested loops -/

/-- Two nested loops visit what one loop visits. -/
theorem flatMap_range (f : ℕ → ℕ → τ) (m n : ℕ) :
    ((List.range m).flatMap fun j => (List.range n).map fun i => f i j) =
      (List.range (n * m)).map fun c => f (c % n) (c / n) := by
  induction m with
  | zero => rfl
  | succ m ih =>
    rw [List.range_succ, List.flatMap_append, ih, List.flatMap_singleton, Nat.mul_succ,
      List.range_add, List.map_append, List.map_map]
    congr 1
    refine List.map_congr_left fun i hi => ?_
    have hi := List.mem_range.mp hi
    rw [Function.comp_apply, Nat.mul_add_mod, Nat.mod_eq_of_lt hi, Nat.mul_add_div (by omega),
      Nat.div_eq_of_lt hi, Nat.add_zero]

theorem foldlM_flatMap {σ υ : Type*} {m : Type _ → Type _} [Monad m] [LawfulMonad m]
    (f : σ → τ → m σ) (g : υ → List τ) (l : List υ) (s : σ) :
    (l.flatMap g).foldlM f s = l.foldlM (fun s x => (g x).foldlM f s) s := by
  induction l generalizing s with
  | nil => rfl
  | cons x l ih =>
    rw [List.flatMap_cons, List.foldlM_append, List.foldlM_cons]
    exact bind_congr fun s => ih s

/-! ### Pieces laid end to end -/

section Pieces

variable {β : Type*} {f : τ → List β}

/-- Where piece `n` starts. -/
def start (f : τ → List β) (l : List τ) (n : ℕ) : ℕ := ((l.take n).flatMap f).length

theorem start_succ {l : List τ} {a : τ} {n : ℕ} :
    start f (a :: l) (n + 1) = (f a).length + start f l n := by
  rw [start, List.take_succ_cons, List.flatMap_cons, List.length_append, start]

/-- Pieces added behind do not move the ones in front. -/
theorem start_append {l l' : List τ} {n : ℕ} (h : n ≤ l.length) :
    start f (l ++ l') n = start f l n := by
  rw [start, List.take_append_of_le_length h, start]

theorem start_length {l : List τ} : start f l l.length = (l.flatMap f).length := by
  rw [start, List.take_length]

theorem getElem?_flatMap_start {l : List τ} {n k : ℕ} {a : τ} {b : β} (hn : l[n]? = some a)
    (hk : (f a)[k]? = some b) : (l.flatMap f)[start f l n + k]? = some b := by
  induction l generalizing n with
  | nil => simp at hn
  | cons c l ih =>
    rcases n with _ | n
    · rw [List.getElem?_cons_zero, Option.some_inj] at hn
      subst hn
      have hlt : k < (f c).length := (List.getElem?_eq_some_iff.mp hk).1
      have hzero : start f (c :: l) 0 = 0 := rfl
      rw [List.flatMap_cons, hzero, Nat.zero_add, List.getElem?_append_left hlt, hk]
    · rw [List.getElem?_cons_succ] at hn
      rw [start_succ, List.flatMap_cons, List.getElem?_append_right (by omega), ← ih hn]
      congr 1
      omega

/-- Every place belongs to a piece. -/
theorem exists_start_of_lt {l : List τ} {i : ℕ} (h : i < (l.flatMap f).length) :
    ∃ n k a, l[n]? = some a ∧ k < (f a).length ∧ i = start f l n + k := by
  induction l generalizing i with
  | nil => simp at h
  | cons c l ih =>
    rw [List.flatMap_cons, List.length_append] at h
    rcases Nat.lt_or_ge i (f c).length with hi | hi
    · refine ⟨0, i, c, rfl, hi, ?_⟩
      have hzero : start f (c :: l) 0 = 0 := rfl
      rw [hzero, Nat.zero_add]
    · obtain ⟨n, k, a, hn, hk, heq⟩ := ih (i := i - (f c).length) (by omega)
      refine ⟨n + 1, k, a, hn, hk, ?_⟩
      rw [start_succ]
      omega

end Pieces

/-! ### Lists in parallel -/

theorem forall₂_of_mapM {α β : Type} {f : α → Option β} {l : List α} {l' : List β}
    (h : l.mapM f = some l') : List.Forall₂ (fun a b => f a = some b) l l' := by
  induction l generalizing l' with
  | nil =>
    obtain rfl : [] = l' := Option.some.inj h
    exact .nil
  | cons a l ih =>
    rw [List.mapM_cons] at h
    obtain ⟨b, hb, h⟩ := Option.bind_eq_some_iff.mp h
    obtain ⟨rest, hrest, h⟩ := Option.bind_eq_some_iff.mp h
    obtain rfl : b :: rest = l' := Option.some.inj h
    exact .cons hb (ih hrest)

/-- Everything on the one side has a partner. -/
theorem exists_of_forall₂ {α β : Type*} {R : α → β → Prop} {l : List α} {l' : List β} {a : α}
    (h : List.Forall₂ R l l') (ha : a ∈ l) : ∃ b ∈ l', R a b := by
  induction h with
  | nil => exact absurd ha List.not_mem_nil
  | cons hab _ ih =>
    rcases List.mem_cons.mp ha with rfl | ha
    · exact ⟨_, List.mem_cons_self, hab⟩
    · obtain ⟨b, hb, hR⟩ := ih ha
      exact ⟨b, List.mem_cons_of_mem _ hb, hR⟩

end Lists
