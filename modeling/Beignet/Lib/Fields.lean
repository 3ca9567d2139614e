/-
Records of keyed fields that lie one after another.

`place o items` gives the items, each a key with a width, consecutive places from the offset `o`
on; `bytes fields key` are the bytes that a key has.  The items of a table of widths are its
entries, row after row, under the keys `(row, column)`.

* `length_bytes_place` — a key has as many bytes as its items are wide.
* **`eq_of_weights`** — the widths of the keys determine the table, where no width is 0.
-/
import Mathlib

namespace Fields

/-- A field of a record: `size` bytes from `addr` on. -/
structure Field (K : Type*) where
  key : K
  addr : ℕ
  size : ℕ

section place

variable {K : Type*} [DecidableEq K]

def place (o : ℕ) : List (K × ℕ) → List (Field K)
  | [] => []
  | (k, w) :: items => ⟨k, o, w⟩ :: place (o + w) items

/-- The bytes of the fields under a key, in the order of the fields. -/
def bytes (fields : List (Field K)) (key : K) : List ℕ :=
  fields.flatMap fun f => if f.key = key then List.range' f.addr f.size else []

/-- How wide the items under a key are together. -/
def weight (items : List (K × ℕ)) (key : K) : ℕ :=
  (items.map fun i => if i.1 = key then i.2 else 0).sum

def total (items : List (K × ℕ)) : ℕ := (items.map Prod.snd).sum

omit [DecidableEq K] in
theorem place_append (o : ℕ) (l1 l2 : List (K × ℕ)) :
    place o (l1 ++ l2) = place o l1 ++ place (o + total l1) l2 := by
  induction l1 generalizing o with
  | nil => simp [place, total]
  | cons i l1 ih =>
    simp only [List.cons_append, place, ih, total, List.map_cons, List.sum_cons, Nat.add_assoc]

omit [DecidableEq K] in
@[simp] theorem total_append (l1 l2 : List (K × ℕ)) : total (l1 ++ l2) = total l1 + total l2 := by
  simp [total]

theorem length_bytes_place (o : ℕ) (items : List (K × ℕ)) (key : K) :
    (bytes (place o items) key).length = weight items key := by
  induction items generalizing o with
  | nil => rfl
  | cons i items ih =>
    have := ih (o + i.2)
    simp only [bytes, place, List.flatMap_cons, List.length_append, weight, List.map_cons,
      List.sum_cons] at this ⊢
    rw [this]
    split <;> simp

theorem weight_eq_zero {items : List (K × ℕ)} {key : K} (h : key ∉ items.map Prod.fst) :
    weight items key = 0 := by
  refine List.sum_eq_zero fun w hw => ?_
  obtain ⟨i, hi, rfl⟩ := List.mem_map.mp hw
  refine if_neg fun heq => h ?_
  exact List.mem_map.mpr ⟨i, hi, heq⟩

theorem weight_of_mem {items : List (K × ℕ)} (hnodup : (items.map Prod.fst).Nodup) {key : K}
    {w : ℕ} (h : (key, w) ∈ items) : weight items key = w := by
  induction items with
  | nil => simp at h
  | cons i items ih =>
    rw [List.map_cons, List.nodup_cons] at hnodup
    rw [weight, List.map_cons, List.sum_cons]
    rcases List.mem_cons.mp h with rfl | h
    · rw [if_pos rfl]
      exact congrArg (w + ·) (weight_eq_zero hnodup.1)
    · have hne : i.1 ≠ key := fun heq => hnodup.1 (heq ▸ List.mem_map_of_mem h)
      rw [if_neg hne, Nat.zero_add]
      exact ih hnodup.2 h

end place

/-! ### Tables -/

/-- The entries of a row, from column `e` on. -/
def row (k : ℕ) : ℕ → List ℕ → List ((ℕ × ℕ) × ℕ)
  | _, [] => []
  | e, w :: ws => ((k, e), w) :: row k (e + 1) ws

/-- The entries of a table, from row `k` on. -/
def table : ℕ → List (List ℕ) → List ((ℕ × ℕ) × ℕ)
  | _, [] => []
  | k, ws :: rows => row k 0 ws ++ table (k + 1) rows

theorem row_append (k e : ℕ) (ws ws' : List ℕ) :
    row k e (ws ++ ws') = row k e ws ++ row k (e + ws.length) ws' := by
  induction ws generalizing e with
  | nil => simp [row]
  | cons w ws ih =>
    simp only [List.cons_append, row, ih, List.length_cons]
    rw [show e + 1 + ws.length = e + (ws.length + 1) by omega]

theorem row_replicate (k m w : ℕ) :
    row k 0 (List.replicate m w) = (List.range m).map fun e => ((k, e), w) := by
  induction m with
  | zero => rfl
  | succ m ih =>
    rw [List.replicate_succ', row_append, ih, List.range_succ, List.map_append]
    simp [row]

theorem widths_row (k e : ℕ) (ws : List ℕ) : (row k e ws).map Prod.snd = ws := by
  induction ws generalizing e with
  | nil => rfl
  | cons w ws ih => simp [row, ih]

theorem widths_table (k : ℕ) (rows : List (List ℕ)) :
    (table k rows).map Prod.snd = rows.flatten := by
  induction rows generalizing k with
  | nil => rfl
  | cons ws rows ih => simp [table, widths_row, ih]

@[simp] theorem total_row (k e : ℕ) (ws : List ℕ) : total (row k e ws) = ws.sum := by
  rw [total, widths_row]

theorem mem_keys_row {k e : ℕ} {ws : List ℕ} {key : ℕ × ℕ}
    (h : key ∈ (row k e ws).map Prod.fst) : key.1 = k ∧ e ≤ key.2 := by
  induction ws generalizing e with
  | nil => simp [row] at h
  | cons w ws ih =>
    simp only [row, List.map_cons, List.mem_cons] at h
    rcases h with rfl | h
    · exact ⟨rfl, le_rfl⟩
    · have := ih h
      omega

theorem mem_keys_table {k : ℕ} {rows : List (List ℕ)} {key : ℕ × ℕ}
    (h : key ∈ (table k rows).map Prod.fst) : k ≤ key.1 := by
  induction rows generalizing k with
  | nil => simp [table] at h
  | cons ws rows ih =>
    simp only [table, List.map_append, List.mem_append] at h
    rcases h with h | h
    · exact (mem_keys_row h).1.ge
    · have := ih h
      omega

theorem nodup_keys_row (k e : ℕ) (ws : List ℕ) : ((row k e ws).map Prod.fst).Nodup := by
  induction ws generalizing e with
  | nil => simp [row]
  | cons w ws ih =>
    simp only [row, List.map_cons, List.nodup_cons]
    refine ⟨fun h => ?_, ih (e + 1)⟩
    have := (mem_keys_row h).2
    simp at this

theorem nodup_keys_table (k : ℕ) (rows : List (List ℕ)) :
    ((table k rows).map Prod.fst).Nodup := by
  induction rows generalizing k with
  | nil => simp [table]
  | cons ws rows ih =>
    simp only [table, List.map_append]
    refine (nodup_keys_row k 0 ws).append (ih (k + 1)) ?_
    -- a row has one first component, the rows after it have larger ones
    intro key h1 h2
    have := (mem_keys_row h1).1
    have := mem_keys_table h2
    omega

theorem weight_append {K : Type*} [DecidableEq K] (l1 l2 : List (K × ℕ)) (key : K) :
    weight (l1 ++ l2) key = weight l1 key + weight l2 key := by
  simp [weight]

theorem weight_row (k e : ℕ) (ws : List ℕ) (j : ℕ) :
    weight (row k e ws) (k, e + j) = ws.getD j 0 := by
  induction ws generalizing e j with
  | nil => simp [row, weight]
  | cons w ws ih =>
    rcases j with _ | j
    · have : weight (row k (e + 1) ws) (k, e) = 0 := by
        refine weight_eq_zero fun h => ?_
        have := (mem_keys_row h).2
        simp at this
      simpa [row, weight] using this
    · have := ih (e + 1) j
      rw [show e + 1 + j = e + (j + 1) by omega] at this
      simpa [row, weight] using this

theorem weight_table (k : ℕ) (rows : List (List ℕ)) (i j : ℕ) :
    weight (table k rows) (k + i, j) = (rows.getD i []).getD j 0 := by
  induction rows generalizing k i with
  | nil => simp [table, weight]
  | cons ws rows ih =>
    rw [table, weight_append]
    rcases i with _ | i
    · have hrow : weight (row k 0 ws) (k, j) = ws.getD j 0 := by
        simpa using weight_row k 0 ws j
      have hrest : weight (table (k + 1) rows) (k, j) = 0 := by
        refine weight_eq_zero fun h => ?_
        have := mem_keys_table h
        simp at this
      simp [hrow, hrest]
    · have hrow : weight (row k 0 ws) (k + (i + 1), j) = 0 := by
        refine weight_eq_zero fun h => ?_
        have := (mem_keys_row h).1
        simp at this
      have hrest := ih (k + 1) i
      rw [show k + 1 + i = k + (i + 1) by omega] at hrest
      simp [hrow, hrest]

theorem eq_of_getD {l1 l2 : List ℕ} (h1 : 0 ∉ l1) (h2 : 0 ∉ l2)
    (h : ∀ j, l1.getD j 0 = l2.getD j 0) : l1 = l2 := by
  have key : ∀ {l l' : List ℕ}, 0 ∉ l → (∀ j, l.getD j 0 = l'.getD j 0) → l.length ≤ l'.length := by
    intro l l' hl hget
    by_contra hlt
    have hj : l'.length < l.length := Nat.lt_of_not_le hlt
    have h0 := hget l'.length
    rw [List.getD_eq_getElem l 0 hj, List.getD_eq_default l' 0 le_rfl] at h0
    exact hl (h0 ▸ List.getElem_mem hj)
  have hlen := Nat.le_antisymm (key h1 h) (key h2 fun j => (h j).symm)
  refine List.ext_getElem hlen fun j hj hj' => ?_
  have := h j
  rwa [List.getD_eq_getElem l1 0 hj, List.getD_eq_getElem l2 0 hj'] at this

theorem eq_of_weights {rows1 rows2 : List (List ℕ)} (hlen : rows1.length = rows2.length)
    (h1 : ∀ ws ∈ rows1, 0 ∉ ws) (h2 : ∀ ws ∈ rows2, 0 ∉ ws)
    (h : ∀ key, weight (table 0 rows1) key = weight (table 0 rows2) key) : rows1 = rows2 := by
  refine List.ext_getElem hlen fun i hi hi' => ?_
  refine eq_of_getD (h1 _ (List.getElem_mem hi)) (h2 _ (List.getElem_mem hi')) fun j => ?_
  have := h (0 + i, j)
  rwa [weight_table, weight_table, List.getD_eq_getElem rows1 [] hi,
    List.getD_eq_getElem rows2 [] hi'] at this

end Fields
