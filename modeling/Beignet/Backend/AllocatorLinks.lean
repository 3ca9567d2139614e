/-
The pointers of the free list (`SimpleAllocator`, `context.cpp`).

`Represents a l` says that head, tail and links of the allocator `a` are those of a
doubly linked list of the blocks `l`.  Each operation on the links has one spec lemma
that gives the list after it:

* `search_spec` — the block found is in the list, with its neighbours;
* `place_spec` — the block found is replaced by the holes left on its two sides;
* `findGap_spec` — the walk from the tail cuts the list at the offset;
* `coalesce_spec` — two neighbours that touch become one block.

Every lemma also says that the operation answers `some`: no dead pointer is followed
and no assertion fails.
-/
import Beignet.Backend.SimpleAllocator

open DoublyLinked

namespace Backend

namespace SimpleAllocator

/-- The linked blocks are those of `l`, in order. -/
structure Represents (a : SimpleAllocator) (l : List (ℕ × Span)) : Prop where
  head : a.head = hd l none
  tail : a.tail = lst none l
  chain : Seg a.blockPool none l none
  nodup : (ptrs l).Nodup
  bound : ∀ p ∈ ptrs l, p < a.fresh

theorem new_represents (startOffset size : ℤ) :
    Represents (new startOffset size) [(0, ⟨startOffset, size⟩)] := by
  refine ⟨rfl, rfl, ?_, by simp, by simp [new]⟩
  rw [seg_singleton]
  simp [new]

theorem Represents.length_le {a : SimpleAllocator} {l : List (ℕ × Span)} (h : Represents a l) :
    l.length ≤ a.fresh := by
  have hsub : (ptrs l).toFinset ⊆ Finset.range a.fresh := by
    intro p hp
    simp only [List.mem_toFinset] at hp
    exact Finset.mem_range.mpr (h.bound p hp)
  have := Finset.card_le_card hsub
  rwa [List.toFinset_card_of_nodup h.nodup, Finset.card_range, List.length_map] at this

theorem Represents.fresh_notMem {a : SimpleAllocator} {l : List (ℕ × Span)}
    (h : Represents a l) : a.fresh ∉ ptrs l := fun hmem => lt_irrefl _ (h.bound _ hmem)

/-! ### Walking the list -/

/-- A node of a represented list, with its neighbours. -/
theorem Represents.node {a : SimpleAllocator} {l1 l2 : List (ℕ × Span)} {x : ℕ × Span}
    (h : Represents a (l1 ++ x :: l2)) :
    a.blockPool x.1 = some ⟨lst none l1, hd l2 none, x.2⟩ :=
  (seg_append.mp h.chain).2.1

/-- The block `allocate` chose: where it stands and how the request fits. -/
structure Hit (l : List (ℕ × Span)) (size alignment : ℤ) (bFwd : Bool)
    (r : ℕ × Node Span × Fit) (l1 : List (ℕ × Span)) (v : Span) (l2 : List (ℕ × Span)) : Prop where
  split : l = l1 ++ (r.1, v) :: l2
  node : r.2.1 = ⟨lst none l1, hd l2 none, v⟩
  fits : fit v size alignment bFwd = some r.2.2

theorem search_forward {a : SimpleAllocator} {l : List (ℕ × Span)} (h : Represents a l)
    (size alignment : ℤ) : ∀ {n : ℕ} (l1 : List (ℕ × Span)) {l2 : List (ℕ × Span)},
      l = l1 ++ l2 → l2.length ≤ n →
      search a.blockPool size alignment true n (hd l2 none) = some none ∧
        (∀ x ∈ l2, fit x.2 size alignment true = none) ∨
      ∃ r k1 v k2, search a.blockPool size alignment true n (hd l2 none) = some (some r) ∧
        Hit l size alignment true r k1 v k2 := by
  intro n
  induction n with
  | zero =>
    intro l1 l2 hl hn
    rw [List.length_eq_zero_iff.mp (Nat.le_zero.mp hn)]
    exact .inl ⟨by simp [search], nofun⟩
  | succ n ih =>
    intro l1 l2 hl hn
    cases l2 with
    | nil => exact .inl ⟨by simp [search], nofun⟩
    | cons x l2 =>
      have hnode := (hl ▸ h).node
      simp only [hd_cons, search, hnode]
      rcases hf : fit x.2 size alignment true with _ | f
      · simp only [if_true]
        refine (ih (l1 ++ [x]) (by simp [hl]) (by simpa using hn)).imp_left fun h => ?_
        exact ⟨h.1, List.forall_mem_cons.mpr ⟨hf, h.2⟩⟩
      · exact .inr ⟨_, l1, x.2, l2, rfl, hl, rfl, hf⟩

theorem search_backward {a : SimpleAllocator} {l : List (ℕ × Span)} (h : Represents a l)
    (size alignment : ℤ) : ∀ {n : ℕ} {l1 : List (ℕ × Span)} (l2 : List (ℕ × Span)),
      l = l1 ++ l2 → l1.length ≤ n →
      search a.blockPool size alignment false n (lst none l1) = some none ∧
        (∀ x ∈ l1, fit x.2 size alignment false = none) ∨
      ∃ r k1 v k2, search a.blockPool size alignment false n (lst none l1) = some (some r) ∧
        Hit l size alignment false r k1 v k2 := by
  intro n
  induction n with
  | zero =>
    intro l1 l2 hl hn
    rw [List.length_eq_zero_iff.mp (Nat.le_zero.mp hn)]
    exact .inl ⟨by simp [search], nofun⟩
  | succ n ih =>
    intro l1 l2 hl hn
    rcases eq_nil_or_snoc l1 with rfl | ⟨l1, x, rfl⟩
    · exact .inl ⟨by simp [search], nofun⟩
    · have hl' : l = l1 ++ x :: l2 := by simp [hl]
      have hnode := (hl' ▸ h).node
      simp only [lst_append, lst_singleton, search, hnode]
      rcases hf : fit x.2 size alignment false with _ | f
      · simp only [Bool.false_eq_true, if_false]
        refine (ih (x :: l2) hl' (by simpa using hn)).imp_left fun h => ⟨h.1, fun y hy => ?_⟩
        rcases List.mem_append.mp hy with hy | hy
        · exact h.2 y hy
        · rw [List.mem_singleton.mp hy]
          exact hf
      · exact .inr ⟨_, l1, x.2, l2, rfl, hl', rfl, hf⟩

/-- The search of `allocate` ends, and finds a block of the list if one fits. -/
theorem search_spec {a : SimpleAllocator} {l : List (ℕ × Span)} (h : Represents a l)
    (size alignment : ℤ) (bFwd : Bool) :
    search a.blockPool size alignment bFwd a.fresh (if bFwd then a.head else a.tail) = some none ∧
        (∀ x ∈ l, fit x.2 size alignment bFwd = none) ∨
      ∃ r l1 v l2,
        search a.blockPool size alignment bFwd a.fresh (if bFwd then a.head else a.tail)
          = some (some r) ∧ Hit l size alignment bFwd r l1 v l2 := by
  cases bFwd with
  | true =>
    simp only [if_true, h.head]
    exact search_forward h size alignment [] rfl h.length_le
  | false =>
    simp only [Bool.false_eq_true, if_false, h.tail]
    exact search_backward h size alignment [] (by simp) h.length_le

/-- The walk of `deallocate` cuts the list into the blocks before the offset and the
blocks from the offset on. -/
theorem findGap_spec {a : SimpleAllocator} {l : List (ℕ × Span)} (h : Represents a l)
    (offset : ℤ) : ∀ {n : ℕ} {l1 : List (ℕ × Span)} (l2 : List (ℕ × Span)),
      l = l1 ++ l2 → l1.length ≤ n →
      (∀ x ∈ l2, offset ≤ x.2.offset) →
      ∃ k1 k2, l = k1 ++ k2 ∧
        findGap a.blockPool offset n (lst none l1) (hd l2 none) = some (lst none k1, hd k2 none) ∧
        (∀ x ∈ k2, offset ≤ x.2.offset) ∧ ∀ x k, k1 = k ++ [x] → x.2.offset < offset := by
  intro n
  induction n with
  | zero =>
    intro l1 l2 hl hn hge
    obtain rfl := List.length_eq_zero_iff.mp (Nat.le_zero.mp hn)
    exact ⟨[], l2, hl, by simp [findGap], hge, by simp⟩
  | succ n ih =>
    intro l1 l2 hl hn hge
    rcases eq_nil_or_snoc l1 with rfl | ⟨l1, x, rfl⟩
    · exact ⟨[], l2, hl, by simp [findGap], hge, by simp⟩
    · have hl' : l = l1 ++ x :: l2 := by simp [hl]
      have hnode := (hl' ▸ h).node
      by_cases hlt : x.2.offset < offset
      · refine ⟨l1 ++ [x], l2, hl, by simp [findGap, hnode, hlt], hge, fun y k hy => ?_⟩
        obtain ⟨-, rfl⟩ := List.append_inj' hy rfl |>.imp_right List.singleton_inj.mp
        exact hlt
      · obtain ⟨k1, k2, hk, hfind, hge', hlast⟩ := ih (x :: l2) hl' (by simpa using hn)
          (by simpa [not_lt.mp hlt] using hge)
        exact ⟨k1, k2, hk, by simpa [findGap, hnode, hlt] using hfind, hge', hlast⟩

/-! ### Inserting and removing blocks -/

@[simp] theorem newBlockBetween_fresh (a : SimpleAllocator) (left right : Option ℕ) (b : Span) :
    (a.newBlockBetween left right b).fresh = a.fresh + 1 := rfl

/-- A new block goes between two segments. -/
theorem newBlockBetween_spec {a : SimpleAllocator} {l1 l2 : List (ℕ × Span)} {b p : Option ℕ}
    (v : Span) (h1 : Seg a.blockPool none l1 b) (h2 : Seg a.blockPool p l2 none)
    (hnd : (ptrs (l1 ++ l2)).Nodup) (hfresh : a.fresh ∉ ptrs (l1 ++ l2)) :
    Seg (a.newBlockBetween (lst none l1) (hd l2 none) v).blockPool none
        (l1 ++ (a.fresh, v) :: l2) none ∧
      ∀ q, q ≠ a.fresh → q ∉ ptrs (l1 ++ l2) →
        (a.newBlockBetween (lst none l1) (hd l2 none) v).blockPool q = a.blockPool q := by
  simp only [ptrs, List.map_append, List.nodup_append', List.mem_append, not_or] at hnd hfresh
  obtain ⟨hnd1, hnd2, hdisj⟩ := hnd
  set h := Function.update a.blockPool a.fresh (some ⟨none, none, v⟩) with hh
  have hne : ∀ q, q ≠ a.fresh → h q = a.blockPool q := fun q hq => Function.update_of_ne hq _ _
  have hself : h a.fresh = some ⟨none, none, v⟩ := Function.update_self _ _ _
  have hs1 : Seg h none l1 b := h1.congr fun q hq => hne q fun hqf => hfresh.1 (hqf ▸ hq)
  have hs2 : Seg h p l2 none := h2.congr fun q hq => hne q fun hqf => hfresh.2 (hqf ▸ hq)
  obtain ⟨hL, hLn, hLf⟩ := linkLeft_spec hs1 hnd1 hfresh.1 hself
  have hs2' : Seg (linkLeft h (lst none l1) a.fresh) p l2 none := hs2.congr fun q hq =>
    hLf q (fun hqf => hfresh.2 (hqf ▸ hq)) fun hq1 => hdisj hq1 hq
  obtain ⟨hR, hRn, hRf⟩ := linkRight_spec hs2' hnd2 hfresh.2 hLn
  refine ⟨seg_append.mpr ⟨hL.congr fun q hq => ?_, hRn, hR⟩, fun q hq hmem => ?_⟩
  · exact hRf q (fun hqf => hfresh.1 (hqf ▸ hq)) fun hq2 => hdisj hq hq2
  · simp only [ptrs, List.map_append, List.mem_append, not_or] at hmem
    exact (hRf q hq hmem.2).trans ((hLf q hq hmem.1).trans (hne q hq))

theorem unlink_spec {h : Heap Span} {l1 l2 : List (ℕ × Span)} {b p : Option ℕ}
    (h1 : Seg h none l1 b) (h2 : Seg h p l2 none) (hnd : (ptrs (l1 ++ l2)).Nodup) :
    Seg (unlink h (lst none l1) (hd l2 none)) none (l1 ++ l2) none := by
  simp only [ptrs, List.map_append, List.nodup_append'] at hnd
  obtain ⟨hnd1, hnd2, hdisj⟩ := hnd
  obtain ⟨hL, hLf⟩ := setNextIf_spec (hd l2 none) h1 hnd1
  have h2' := h2.congr fun q hq => hLf q fun hq1 => hdisj hq1 hq
  obtain ⟨hR, hRf⟩ := setPrevIf_spec (lst none l1) h2' hnd2
  exact seg_append.mpr ⟨hL.congr fun q hq => hRf q fun hq2 => hdisj hq hq2, hR⟩

theorem endsConsistent_of_seg {h : Heap Span} {l : List (ℕ × Span)} (hs : Seg h none l none) :
    endsConsistent h (hd l none) (lst none l) = true := by
  unfold endsConsistent
  rw [Bool.and_eq_true]
  constructor
  · match l with
    | [] => rfl
    | [x] =>
      rw [seg_singleton] at hs
      simp [hs]
    | x :: y :: l =>
      obtain ⟨hx, hy, -⟩ := hs
      simp [hx, hy]
  · rcases eq_nil_or_snoc l with rfl | ⟨l, y, rfl⟩
    · rfl
    · rcases eq_nil_or_snoc l with rfl | ⟨l, x, rfl⟩
      · rw [List.nil_append, seg_singleton] at hs
        simp [hs]
      · rw [List.append_assoc] at hs
        obtain ⟨-, hx, hy, -⟩ := seg_append.mp hs
        have hx' : h x.1 = some ⟨lst none l, some y.1, x.2⟩ := hx
        simp only [lst_append, lst_singleton, Option.bind_some, hy, hx', beq_self_eq_true]

/-! ### Cutting a block -/

/-- The hole left beside the allocated piece, as a list of at most one block. -/
def hole (offset size : ℤ) : List Span := if size ≠ 0 then [⟨offset, size⟩] else []

/-- The head update of `allocate`, for any replacement `L ++ R` of the block `x`. -/
theorem head_update {l1 l2 L R : List (ℕ × Span)} {x : ℕ × Span}
    (hnd : (ptrs (l1 ++ x :: l2)).Nodup) (hL : L.length ≤ 1) :
    (if some x.1 = hd (l1 ++ x :: l2) none then
        (lst none (l1 ++ L)).or (hd (R ++ l2) none) else hd (l1 ++ x :: l2) none)
      = hd (l1 ++ (L ++ R) ++ l2) none := by
  cases l1 with
  | nil =>
    match L, hL with
    | [], _ => simp
    | [y], _ => simp
  | cons y l1 =>
    have hxy : x.1 ≠ y.1 := by
      rintro hxy
      simp only [ptrs, List.cons_append, List.map_cons, List.nodup_cons] at hnd
      exact hnd.1 (by simp [hxy])
    simp [hxy]

theorem lst_eq_of_ne_nil {l : List (ℕ × Span)} (hl : l ≠ []) (a b : Option ℕ) :
    lst a l = lst b l := by
  cases l with
  | nil => exact absurd rfl hl
  | cons x l => rfl

theorem lst_mem {l : List (ℕ × Span)} (hl : l ≠ []) (a : Option ℕ) :
    ∃ p ∈ ptrs l, lst a l = some p := by
  rcases eq_nil_or_snoc l with rfl | ⟨l, x, rfl⟩
  · exact absurd rfl hl
  · exact ⟨x.1, by simp, by simp⟩

/-- The tail update of `allocate`. -/
theorem tail_update {l1 l2 L R : List (ℕ × Span)} {x : ℕ × Span}
    (hnd : (ptrs (l1 ++ x :: l2)).Nodup) (hR : R.length ≤ 1) :
    (if some x.1 = lst none (l1 ++ x :: l2) then
        (hd (R ++ l2) none).or (lst none (l1 ++ L)) else lst none (l1 ++ x :: l2))
      = lst none (l1 ++ (L ++ R) ++ l2) := by
  by_cases hl2 : l2 = []
  · subst hl2
    match R, hR with
    | [], _ => simp
    | [y], _ => simp
  · have hcons : lst none (l1 ++ x :: l2) = lst (some x.1) l2 := by
      rw [lst_append]
      rfl
    obtain ⟨p, hp, hlp⟩ := lst_mem hl2 (some x.1)
    have hxp : x.1 ≠ p := by
      rintro rfl
      simp only [ptrs, List.map_append, List.map_cons, List.nodup_append', List.nodup_cons] at hnd
      exact hnd.2.1.1 hp
    rw [hcons, if_neg (by rw [hlp]; simpa using hxp), lst_append]
    exact lst_eq_of_ne_nil hl2 _ _

/-- The end of `allocate`, when the heap already holds the list with the block `x`
replaced by `L ++ R`.  The blocks made on the way are `a.fresh` and up. -/
theorem finish_spec {a0 a : SimpleAllocator} {h : Heap Span} {l1 l2 L R : List (ℕ × Span)}
    {x : ℕ × Span} (aligned size : ℤ) (hrep : Represents a0 (l1 ++ x :: l2))
    (hhead : a.head = a0.head) (htail : a.tail = a0.tail) (hfresh : a0.fresh ≤ a.fresh)
    (hs : Seg h none (l1 ++ (L ++ R) ++ l2) none) (hnd : (ptrs (L ++ R)).Nodup)
    (hge : ∀ p ∈ ptrs (L ++ R), a0.fresh ≤ p ∧ p < a.fresh)
    (hL : L.length ≤ 1) (hR : R.length ≤ 1) :
    ∃ a', a.finish h x.1 (lst none (l1 ++ L)) (hd (R ++ l2) none) aligned size
        = some (a', aligned) ∧
      Represents a' (l1 ++ (L ++ R) ++ l2) ∧
      a'.allocatedBlocks = mapInsert a.allocatedBlocks aligned size := by
  have hold := hrep.nodup
  have hbound := hrep.bound
  simp only [ptrs, List.map_append, List.map_cons, List.nodup_append', List.nodup_cons,
    List.mem_append, List.mem_cons] at hold hbound hnd hge
  obtain ⟨hnd1, ⟨hx2, hnd2⟩, hdisj⟩ := hold
  have hx1 : x.1 ∉ ptrs l1 := fun hx => hdisj hx (by simp)
  have hs' : Seg (Function.update h x.1 none) none (l1 ++ (L ++ R) ++ l2) none := by
    refine hs.congr fun p hp => Function.update_of_ne ?_ _ _
    rintro rfl
    have hlt := hbound x.1 (.inr (.inl rfl))
    simp only [ptrs, List.map_append, List.mem_append] at hp
    rcases hp with (hp | hp) | hp
    · exact hx1 hp
    · have := hge x.1 hp
      omega
    · exact hx2 hp
  have hends := endsConsistent_of_seg hs'
  simp only [finish, hhead, htail, hrep.head, hrep.tail, head_update hrep.nodup hL,
    tail_update hrep.nodup hR, hends, if_true]
  refine ⟨_, rfl, ⟨rfl, rfl, hs', ?_, ?_⟩, rfl⟩
  · simp only [ptrs, List.map_append, List.nodup_append', List.disjoint_append_left]
    refine ⟨⟨hnd1, hnd, fun p hp hpm => ?_⟩, hnd2, fun p hp hp2 => hdisj hp (by simp [hp2]),
      ?_, ?_⟩
    · have := hbound p (.inl hp)
      have := hge p (List.mem_append.mp hpm)
      omega
    · intro p hp hp2
      have := hbound p (.inr (.inr hp2))
      have := hge p (.inl hp)
      omega
    · intro p hp hp2
      have := hbound p (.inr (.inr hp2))
      have := hge p (.inr hp)
      omega
  · intro p hp
    simp only [ptrs, List.map_append, List.mem_append] at hp
    rcases hp with (hp | hp) | hp
    · exact (hbound p (.inl hp)).trans_le hfresh
    · exact (hge p hp).2
    · exact (hbound p (.inr (.inr hp))).trans_le hfresh

/-- The block found is replaced by the holes left on its two sides. -/
theorem place_spec {a : SimpleAllocator} {l1 l2 : List (ℕ × Span)} {x : ℕ × Span}
    (h : Represents a (l1 ++ x :: l2)) (size : ℤ) (f : Fit) :
    ∃ a' m, a.place size x.1 ⟨lst none l1, hd l2 none, x.2⟩ f = some (a', f.aligned) ∧
      Represents a' (l1 ++ m ++ l2) ∧
      m.map Prod.snd = hole x.2.offset f.spaceOnLeft
        ++ hole (f.aligned + size) f.spaceOnRight ∧
      a'.allocatedBlocks = mapInsert a.allocatedBlocks f.aligned size := by
  obtain ⟨h1, -, h2⟩ := seg_append.mp h.chain
  have hnd : (ptrs (l1 ++ l2)).Nodup := by
    have := h.nodup
    simp only [ptrs, List.map_append, List.map_cons] at this ⊢
    exact (List.nodup_middle.mp this).of_cons
  have hb : ∀ p ∈ ptrs (l1 ++ l2), p < a.fresh := fun p hp => h.bound p (by
    simp only [ptrs, List.map_append, List.mem_append, List.map_cons, List.mem_cons] at hp ⊢
    tauto)
  have hfresh : a.fresh ∉ ptrs (l1 ++ l2) := fun hmem => lt_irrefl _ (hb _ hmem)
  by_cases hL : f.spaceOnLeft = 0 <;> by_cases hR : f.spaceOnRight = 0
  · -- The whole block is taken.
    have hs := unlink_spec h1 h2 hnd
    obtain ⟨a', he, hrep, hm⟩ := finish_spec (L := []) (R := []) f.aligned size h rfl rfl le_rfl
      (by simpa using hs) (by simp) (by simp) (by simp) (by simp)
    exact ⟨a', [], by simpa [place, cutHole, hL, hR] using he, by simpa using hrep,
      by simp [hole, hL, hR], hm⟩
  · -- A hole on the right only.
    obtain ⟨hs, -⟩ := newBlockBetween_spec (⟨f.aligned + size, f.spaceOnRight⟩ : Span) h1 h2 hnd
      hfresh
    obtain ⟨a', he, hrep, hm⟩ := finish_spec (L := []) (R := [(a.fresh, _)])
      (a := a.newBlockBetween (lst none l1) (hd l2 none) ⟨f.aligned + size, f.spaceOnRight⟩)
      f.aligned size h rfl rfl (Nat.le_succ _) (by simpa using hs) (by simp)
      (by simp) (by simp) (by simp)
    exact ⟨a', _, by simpa [place, cutHole, hL, hR] using he, hrep, by simp [hole, hL, hR], hm⟩
  · -- A hole on the left only.
    obtain ⟨hs, -⟩ := newBlockBetween_spec (⟨x.2.offset, f.spaceOnLeft⟩ : Span) h1 h2 hnd hfresh
    obtain ⟨a', he, hrep, hm⟩ := finish_spec (L := [(a.fresh, _)]) (R := [])
      (a := a.newBlockBetween (lst none l1) (hd l2 none) ⟨x.2.offset, f.spaceOnLeft⟩)
      f.aligned size h rfl rfl (Nat.le_succ _) (by simpa using hs) (by simp)
      (by simp) (by simp) (by simp)
    exact ⟨a', _, by simpa [place, cutHole, hL, hR] using he, hrep, by simp [hole, hL, hR], hm⟩
  · -- Holes on both sides: the right one goes behind the left one.
    obtain ⟨hs, -⟩ := newBlockBetween_spec (⟨x.2.offset, f.spaceOnLeft⟩ : Span) h1 h2 hnd hfresh
    have hs' : Seg (a.newBlockBetween (lst none l1) (hd l2 none)
        ⟨x.2.offset, f.spaceOnLeft⟩).blockPool none
        ((l1 ++ [(a.fresh, ⟨x.2.offset, f.spaceOnLeft⟩)]) ++ l2) none := by simpa using hs
    obtain ⟨hs1, hs2⟩ := seg_append.mp hs'
    have hnd' : (ptrs ((l1 ++ [(a.fresh, (⟨x.2.offset, f.spaceOnLeft⟩ : Span))]) ++ l2)).Nodup := by
      simp only [ptrs, List.map_append, List.map_cons, List.append_assoc, List.cons_append,
        List.nil_append] at hnd hfresh ⊢
      exact List.nodup_middle.mpr (List.nodup_cons.mpr ⟨hfresh, hnd⟩)
    have hfresh' : a.fresh + 1 ∉
        ptrs ((l1 ++ [(a.fresh, (⟨x.2.offset, f.spaceOnLeft⟩ : Span))]) ++ l2) := by
      intro hmem
      simp only [ptrs, List.map_append, List.mem_append, List.map_cons, List.map_nil,
        List.mem_singleton] at hmem hb
      rcases hmem with (hmem | hmem) | hmem
      · have := hb _ (.inl hmem)
        omega
      · omega
      · have := hb _ (.inr hmem)
        omega
    obtain ⟨hs3, -⟩ := newBlockBetween_spec (⟨f.aligned + size, f.spaceOnRight⟩ : Span) hs1 hs2
      hnd' hfresh'
    obtain ⟨a', he, hrep, hm⟩ := finish_spec (L := [(a.fresh, _)]) (R := [(a.fresh + 1, _)])
      (a := (a.newBlockBetween (lst none l1) (hd l2 none)
        ⟨x.2.offset, f.spaceOnLeft⟩).newBlockBetween (some a.fresh) (hd l2 none)
        ⟨f.aligned + size, f.spaceOnRight⟩)
      f.aligned size h rfl rfl (by simp; omega) (by simpa using hs3) (by simp)
      (by simp) (by simp) (by simp)
    refine ⟨a', _, ?_, hrep, by simp [hole, hL, hR], hm⟩
    simpa [place, cutHole, hL, hR, newBlockBetween] using he

/-! ### Freeing a block -/

/-- The freed block enters the list between the two blocks of the gap. -/
theorem insert_spec {a : SimpleAllocator} {l1 l2 : List (ℕ × Span)} (h : Represents a (l1 ++ l2))
    (v : Span) :
    Represents (a.insertFree (lst none l1) (hd l2 none) v) (l1 ++ (a.fresh, v) :: l2) := by
  obtain ⟨h1, h2⟩ := seg_append.mp h.chain
  obtain ⟨hs, -⟩ := newBlockBetween_spec v h1 h2 h.nodup h.fresh_notMem
  refine ⟨?_, ?_, hs, ?_, ?_⟩
  · cases l1 with
    | nil => simp [insertFree]
    | cons x l1 =>
      obtain ⟨p, -, hp⟩ := lst_mem (List.cons_ne_nil x l1) none
      simp [insertFree, hp, h.head]
  · cases l2 with
    | nil => simp [insertFree]
    | cons x l2 =>
      simp only [insertFree, hd_cons, Option.isSome_some, if_true, h.tail, lst_append]
      rfl
  · have hfresh := h.fresh_notMem
    have hnd := h.nodup
    simp only [ptrs, List.map_append, List.map_cons] at hfresh hnd ⊢
    exact List.nodup_middle.mpr (List.nodup_cons.mpr ⟨hfresh, hnd⟩)
  · intro p hp
    simp only [ptrs, List.map_append, List.map_cons, List.mem_append, List.mem_cons] at hp
    have hb := h.bound p
    simp only [ptrs, List.map_append, List.mem_append] at hb
    simp only [insertFree, newBlockBetween_fresh]
    rcases hp with hp | rfl | hp
    · have := hb (.inl hp)
      omega
    · omega
    · have := hb (.inr hp)
      omega

/-- Two neighbours that touch become one block, at the address of the right one. -/
theorem coalesce_spec {a : SimpleAllocator} {l1 l2 : List (ℕ × Span)} {x y : ℕ × Span}
    (h : Represents a (l1 ++ x :: y :: l2)) (hlt : x.2.offset < y.2.offset) :
    ∃ a', a.coalesce (some x.1) (some y.1) = some a' ∧ a'.allocatedBlocks = a.allocatedBlocks ∧
      if x.2.offset + x.2.size = y.2.offset then
        Represents a' (l1 ++ (y.1, ⟨x.2.offset, y.2.size + x.2.size⟩) :: l2)
      else a' = a := by
  obtain ⟨h1, hx, hy, h2⟩ := seg_append.mp h.chain
  simp only [hd_cons] at h1 hx
  by_cases hadj : x.2.offset + x.2.size = y.2.offset
  · simp only [coalesce, hx, hy, hlt, hadj, and_self, if_true]
    refine ⟨_, rfl, rfl, ?_⟩
    have hnd := h.nodup
    simp only [ptrs, List.map_append, List.map_cons, List.nodup_append', List.nodup_cons,
      List.mem_cons, not_or] at hnd
    obtain ⟨hnd1, ⟨⟨hxy, hx2⟩, hy2, hnd2⟩, hdisj⟩ := hnd
    have hx1 : x.1 ∉ ptrs l1 := fun hm => hdisj hm (by simp)
    have hy1 : y.1 ∉ ptrs l1 := fun hm => hdisj hm (by simp)
    -- The four writes, one after the other.
    set g1 := a.blockPool.modify y.1 ({ · with val := ⟨x.2.offset, y.2.size + x.2.size⟩ }) with hg1
    have hg1y : g1 y.1 = some ⟨some x.1, hd l2 none, ⟨x.2.offset, y.2.size + x.2.size⟩⟩ := by
      rw [hg1, Heap.modify_self, hy]
      rfl
    have hg1f : ∀ p, p ≠ y.1 → g1 p = a.blockPool p := fun p hp =>
      Heap.modify_of_ne a.blockPool _ hp
    obtain ⟨hL, hLf⟩ := setNextIf_spec (some y.1)
      (h1.congr fun p hp => hg1f p fun hpy => hy1 (hpy ▸ hp)) hnd1
    have hfinal : ∀ p, p ≠ x.1 → p ≠ y.1 →
        Function.update ((g1.setNextIf (lst none l1) (some y.1)).setPrev y.1 (lst none l1)) x.1
          none p = g1.setNextIf (lst none l1) (some y.1) p := fun p hpx hpy => by
      rw [Function.update_of_ne hpx, Heap.setPrev_of_ne _ _ hpy]
    refine ⟨?_, ?_, ?_, ?_, ?_⟩
    · simp only [h.head, hd_append, hd_cons]
      cases l1 with
      | nil => simp
      | cons z l1 =>
        have hxz : x.1 ≠ z.1 := fun hxz => hx1 (by simp [hxz])
        simp [hxz]
    · simp only [h.tail, lst_append]
      rfl
    · refine seg_append.mpr ⟨hL.congr fun p hp => hfinal p ?_ ?_, ?_, h2.congr fun p hp => ?_⟩
      · exact fun hpx => hx1 (hpx ▸ hp)
      · exact fun hpy => hy1 (hpy ▸ hp)
      · simp only [Function.update_of_ne (Ne.symm hxy), Heap.setPrev_self, hLf y.1 hy1, hg1y]
        rfl
      · have hpy : p ≠ y.1 := fun hpy => hy2 (hpy ▸ hp)
        have hp1 : p ∉ ptrs l1 := fun hm => hdisj hm (by simp [hp])
        have hpx : p ≠ x.1 := fun hpx => hx2 (hpx ▸ hp)
        exact (hfinal p hpx hpy).trans ((hLf p hp1).trans (hg1f p hpy))
    · simp only [ptrs, List.map_append, List.map_cons, List.nodup_append', List.nodup_cons]
      refine ⟨hnd1, ⟨hy2, hnd2⟩, fun p hp hmem => hdisj hp (List.mem_cons_of_mem _ hmem)⟩
    · intro p hp
      refine h.bound p ?_
      simp only [ptrs, List.map_append, List.map_cons, List.mem_append, List.mem_cons] at hp ⊢
      tauto
  · simp only [coalesce, hx, hy, hlt, hadj, and_self, if_true, if_false]
    exact ⟨a, rfl, rfl, rfl⟩

end SimpleAllocator

end Backend
