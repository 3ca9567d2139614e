/-
Maps as lists with increasing keys, the way `std::map` iterates over them.

* `SortedMap.insert` — keeps the value that a key has.
* `SortedMap.ofList_entries` — a map is what its entries make, inserted in order.
-/
import Mathlib

variable {K V : Type} [LT K]

/-- The entries of a map, by rising keys. -/
structure SortedMap (K V : Type) [LT K] where
  entries : List (K × V)
  sorted : entries.Pairwise fun a b => a.1 < b.1

namespace SortedMap

def empty : SortedMap K V := ⟨[], List.Pairwise.nil⟩

/-- The same keys. -/
def map {W : Type} (f : K → V → W) (m : SortedMap K V) : SortedMap K W :=
  ⟨m.entries.map fun e => (e.1, f e.1 e.2), by
    rw [List.pairwise_map]
    exact m.sorted⟩

/-- The value of a key. -/
def find? [DecidableEq K] (m : SortedMap K V) (key : K) : Option V :=
  (m.entries.find? fun e => e.1 = key).map fun e => e.2

theorem find?_map {W : Type} [DecidableEq K] (f : K → V → W) (m : SortedMap K V) (key : K) :
    (m.map f).find? key = (m.find? key).map (f key) := by
  show ((m.entries.map _).find? _).map _ = ((m.entries.find? _).map _).map _
  induction m.entries with
  | nil => rfl
  | cons e rest ih =>
    by_cases he : e.1 = key
    · simp [he]
    · simpa [he] using ih

theorem exists_mem_of_find? [DecidableEq K] {m : SortedMap K V} {key : K} {value : V}
    (h : m.find? key = some value) : (key, value) ∈ m.entries := by
  obtain ⟨e, he, rfl⟩ := Option.map_eq_some_iff.mp h
  have hkey : e.1 = key := of_decide_eq_true (List.find?_eq_some_iff_append.mp he).1
  rw [← hkey]
  exact List.mem_of_find?_eq_some he

variable [DecidableLT K]

/-- The list with one entry more, unless the key is there. -/
def insertList (key : K) (value : V) : List (K × V) → List (K × V)
  | [] => [(key, value)]
  | e :: rest =>
    if key < e.1 then (key, value) :: e :: rest
    else if e.1 < key then e :: insertList key value rest
    else e :: rest

theorem mem_insertList {key : K} {value : V} {l : List (K × V)} {e : K × V}
    (h : e ∈ insertList key value l) : e = (key, value) ∨ e ∈ l := by
  induction l with
  | nil => exact .inl (List.mem_singleton.mp h)
  | cons d rest ih =>
    rw [insertList] at h
    split_ifs at h
    · exact (List.mem_cons.mp h).imp_right id
    · rcases List.mem_cons.mp h with rfl | h
      · exact .inr List.mem_cons_self
      · exact (ih h).imp_right (List.mem_cons_of_mem _)
    · exact .inr h

variable [Trans (· < · : K → K → Prop) (· < · : K → K → Prop) (· < · : K → K → Prop)]

theorem sorted_insertList {key : K} {value : V} {l : List (K × V)}
    (h : l.Pairwise fun a b => a.1 < b.1) :
    (insertList key value l).Pairwise fun a b => a.1 < b.1 := by
  induction l with
  | nil => exact List.pairwise_singleton _ _
  | cons d rest ih =>
    obtain ⟨hd, hrest⟩ := List.pairwise_cons.mp h
    rw [insertList]
    split_ifs with h1 h2
    · refine List.pairwise_cons.mpr ⟨?_, h⟩
      intro e he
      rcases List.mem_cons.mp he with rfl | he
      · exact h1
      · exact Trans.trans h1 (hd e he)
    · refine List.pairwise_cons.mpr ⟨?_, ih hrest⟩
      intro e he
      rcases mem_insertList he with rfl | he
      · exact h2
      · exact hd e he
    · exact h

/-- `std::map::insert` -/
def insert (m : SortedMap K V) (key : K) (value : V) : SortedMap K V :=
  ⟨insertList key value m.entries, sorted_insertList m.sorted⟩

/-- The map of some values, inserted one after another. -/
def ofList (l : List (K × V)) : SortedMap K V := l.foldl (fun m e => m.insert e.1 e.2) empty

omit [Trans (· < · : K → K → Prop) (· < · : K → K → Prop) (· < · : K → K → Prop)] in
theorem insertList_last [Std.Asymm (· < · : K → K → Prop)] {key : K} {value : V}
    {l : List (K × V)} (h : ∀ e ∈ l, e.1 < key) :
    insertList key value l = l ++ [(key, value)] := by
  induction l with
  | nil => rfl
  | cons d rest ih =>
    have hd := h d List.mem_cons_self
    rw [insertList, if_neg (Std.Asymm.asymm _ _ hd), if_pos hd,
      ih fun e he => h e (List.mem_cons_of_mem _ he)]
    rfl

theorem foldl_insert [Std.Asymm (· < · : K → K → Prop)] {l l' : List (K × V)}
    {m : SortedMap K V} (hm : m.entries = l) (h : (l ++ l').Pairwise fun a b => a.1 < b.1) :
    (l'.foldl (fun m e => m.insert e.1 e.2) m).entries = l ++ l' := by
  induction l' generalizing l m with
  | nil => rw [List.append_nil, List.foldl_nil, hm]
  | cons e rest ih =>
    -- every key so far is smaller than the next one
    have hlt : ∀ d ∈ l, d.1 < e.1 :=
      fun d hd => (List.pairwise_append.mp h).2.2 d hd e List.mem_cons_self
    have hnext : (m.insert e.1 e.2).entries = l ++ [e] := by
      show insertList e.1 e.2 m.entries = _
      rw [hm, insertList_last hlt]
    rw [List.foldl_cons, ih hnext (by simpa using h)]
    simp

theorem entries_ofList [Std.Asymm (· < · : K → K → Prop)] {l : List (K × V)}
    (h : l.Pairwise fun a b => a.1 < b.1) : (ofList l).entries = l := foldl_insert rfl h

theorem ofList_entries [Std.Asymm (· < · : K → K → Prop)] (m : SortedMap K V) :
    ofList m.entries = m := by
  have h : (ofList m.entries).entries = m.entries := foldl_insert rfl m.sorted
  cases m
  unfold ofList at h ⊢
  generalize hm : List.foldl _ _ _ = m' at h
  cases m'
  simp only at h
  subst h
  rfl

end SortedMap
