/-
The invariant of the register-file allocator over whole runs (`context.cpp`).

The free blocks and the tracked blocks are the cells of a tiling of the range the
allocator was built with: every byte is in exactly one of them.  Each operation
exchanges some cells for others that cover the same bytes,

* `allocate`: a free block for its two holes and the allocated piece,
* `deallocate`: a tracked block for a free one, then up to two merges,
* `splitBlock`: a tracked block for two tracked blocks,

and keeps the free list in order with a gap between neighbours.  The result over
every sequence of calls is `allocator_invariant`.
-/
import Beignet.Backend.AllocatorLinks

open DoublyLinked Tiling

namespace Backend

/-- A block of the range: free, or given out. -/
inductive Cell where
  | free (s : Span)
  | used (s : Span)

def Span.bytes (s : Span) : Set ℤ := Set.Ico s.offset (s.offset + s.size)

def Cell.bytes : Cell → Set ℤ
  | .free s => s.bytes
  | .used s => s.bytes

/-- The blocks of a map of allocated blocks and a list of free ones. -/
def cells (m : ℤ → Option ℤ) (F : List Span) : Set Cell
  | .free s => s ∈ F
  | .used s => m s.offset = some s.size

@[simp] theorem mem_cells_free {m : ℤ → Option ℤ} {F : List Span} {s : Span} :
    Cell.free s ∈ cells m F ↔ s ∈ F := Iff.rfl

@[simp] theorem mem_cells_used {m : ℤ → Option ℤ} {F : List Span} {s : Span} :
    Cell.used s ∈ cells m F ↔ m s.offset = some s.size := Iff.rfl

/-- In order, with a gap between neighbours. -/
def Separated (F : List Span) : Prop := F.Pairwise fun x y => x.offset + x.size < y.offset

/-- In order, with no overlap. -/
def Ordered (F : List Span) : Prop := F.Pairwise fun x y => x.offset + x.size ≤ y.offset

theorem Separated.ordered {F : List Span} (h : Separated F) : Ordered F :=
  List.Pairwise.imp (fun hlt => hlt.le) h

theorem Ordered.nodup {F : List Span} (h : Ordered F) (hpos : ∀ s ∈ F, 0 < s.size) :
    F.Nodup := by
  refine List.Pairwise.imp_of_mem (fun {x y} hx _ hxy => ?_) h
  rintro rfl
  have := hpos x hx
  omega

/-! ### Reading the tiling -/

section Read

variable {m : ℤ → Option ℤ} {F : List Span} {I : Set ℤ} (h : Tiles Cell.bytes (cells m F) I)

include h

theorem free_pos {s : Span} (hs : s ∈ F) : 0 < s.size := by
  obtain ⟨b, hb⟩ := h.nonempty (.free s) hs
  have : s.offset ≤ b ∧ b < s.offset + s.size := hb
  omega

theorem used_pos {o sz : ℤ} (hs : m o = some sz) : 0 < sz := by
  obtain ⟨b, hb⟩ := h.nonempty (.used ⟨o, sz⟩) hs
  have : o ≤ b ∧ b < o + sz := hb
  omega

theorem free_not_used {s : Span} {o sz b : ℤ} (hs : s ∈ F) (ho : m o = some sz)
    (hb : s.offset ≤ b ∧ b < s.offset + s.size) : ¬ (o ≤ b ∧ b < o + sz) := by
  intro hb'
  have := h.eq_of_mem (i := .free s) (j := .used ⟨o, sz⟩) hs ho hb hb'
  cases this

theorem used_unique {o o' sz sz' b : ℤ} (ho : m o = some sz) (ho' : m o' = some sz')
    (hb : o ≤ b ∧ b < o + sz) (hb' : o' ≤ b ∧ b < o' + sz') : o = o' := by
  have := h.eq_of_mem (i := .used ⟨o, sz⟩) (j := .used ⟨o', sz'⟩) ho ho' hb hb'
  simp only [Cell.used.injEq, Span.mk.injEq] at this
  exact this.1

/-- No tracked block starts at a free byte. -/
theorem not_tracked_of_free {s : Span} {b : ℤ} (hs : s ∈ F)
    (hb : s.offset ≤ b ∧ b < s.offset + s.size) : m b = none := by
  rcases hm : m b with _ | sz
  · rfl
  · exact absurd ⟨le_rfl, by have := used_pos h hm; omega⟩ (free_not_used h hs hm hb)

/-- No tracked block starts inside another one. -/
theorem not_tracked_inside {o sz b : ℤ} (ho : m o = some sz) (hlt : o < b) (hb : b < o + sz) :
    m b = none := by
  rcases hm : m b with _ | sz'
  · rfl
  · have := used_unique h ho hm ⟨hlt.le, hb⟩ ⟨le_rfl, by have := used_pos h hm; omega⟩
    omega

end Read

/-! ### Exchanging cells -/

/-- The hole on one side of the allocated piece, as cells. -/
theorem hole_tiles {o sz : ℤ} (hsz : 0 ≤ sz) :
    Tiles Cell.bytes (Cell.free '' {s | s ∈ SimpleAllocator.hole o sz}) (Set.Ico o (o + sz)) := by
  unfold SimpleAllocator.hole
  by_cases h0 : sz = 0
  · simpa [h0] using Tiles.empty
  · have : (Cell.free ⟨o, sz⟩).bytes.Nonempty :=
      ⟨o, show o ≤ o ∧ o < o + sz from ⟨le_rfl, by omega⟩⟩
    have hs : Tiles Cell.bytes {.free ⟨o, sz⟩} (Set.Ico o (o + sz)) :=
      Tiles.singleton (c := Cell.bytes) this
    simpa [h0] using hs

theorem tiles_allocate {m : ℤ → Option ℤ} {F1 F2 : List Span} {v : Span} {I : Set ℤ}
    {aligned size L R : ℤ} (h : Tiles Cell.bytes (cells m (F1 ++ v :: F2)) I)
    (hF : (F1 ++ v :: F2).Nodup) (hL : 0 ≤ L) (hR : 0 ≤ R) (hsize : 0 < size)
    (ha : aligned = v.offset + L) (hv : v.size = L + size + R) :
    Tiles Cell.bytes
      (cells (SimpleAllocator.mapInsert m aligned size)
        (F1 ++ (SimpleAllocator.hole v.offset L ++ SimpleAllocator.hole (aligned + size) R) ++ F2))
      I := by
  have hvmem : v ∈ F1 ++ v :: F2 := by simp
  have hnone : m aligned = none := not_tracked_of_free h hvmem (by omega)
  -- The two holes and the piece between them tile the block.
  have hnew : Tiles Cell.bytes
      (Cell.free '' {s | s ∈ SimpleAllocator.hole v.offset L} ∪
        ({.used ⟨aligned, size⟩} ∪ Cell.free '' {s | s ∈ SimpleAllocator.hole (aligned + size) R}))
      (⋃ c ∈ ({.free v} : Set Cell), c.bytes) := by
    have hpiece : Tiles Cell.bytes {.used ⟨aligned, size⟩} (Set.Ico aligned (aligned + size)) :=
      Tiles.singleton (c := Cell.bytes) ⟨aligned, show aligned ≤ aligned ∧ _ by
        exact ⟨le_rfl, by simpa using hsize⟩⟩
    have hright := hpiece.union (hole_tiles (o := aligned + size) hR) Set.Ico_disjoint_Ico_same
    rw [Set.Ico_union_Ico_eq_Ico (by omega) (by omega)] at hright
    have hall := (hole_tiles (o := v.offset) hL).union hright
      (by rw [ha]; exact Set.Ico_disjoint_Ico_same)
    rw [ha, Set.Ico_union_Ico_eq_Ico (by omega) (by omega)] at hall
    have hbytes : (⋃ c ∈ ({.free v} : Set Cell), c.bytes)
        = Set.Ico v.offset (v.offset + L + size + R) := by
      simp only [Set.biUnion_singleton, Cell.bytes, Span.bytes]
      congr 1
      omega
    rw [hbytes, ha]
    exact hall
  have hrep := h.replace (T := {.free v}) (by simp) hnew
  convert hrep using 1
  simp only [List.nodup_append', List.nodup_cons] at hF
  obtain ⟨-, ⟨hv2, -⟩, hdisj⟩ := hF
  have hv1 : v ∉ F1 := fun hm => hdisj hm (by simp)
  ext c
  cases c with
  | free s =>
    simp only [mem_cells_free, List.mem_append, Set.mem_union, Set.mem_sdiff, List.mem_cons,
      Set.mem_singleton_iff, Cell.free.injEq, reduceCtorEq, Set.mem_image, Set.mem_ofPred_eq,
      exists_eq_right, false_or]
    constructor
    · rintro ((hs | hs | hs) | hs)
      · exact .inl ⟨.inl hs, fun heq => hv1 (heq ▸ hs)⟩
      · exact .inr (.inl hs)
      · exact .inr (.inr hs)
      · exact .inl ⟨.inr (.inr hs), fun heq => hv2 (heq ▸ hs)⟩
    · rintro (⟨hs | hs | hs, hne⟩ | hs | hs)
      · exact .inl (.inl hs)
      · exact absurd hs hne
      · exact .inr hs
      · exact .inl (.inr (.inl hs))
      · exact .inl (.inr (.inr hs))
  | used s =>
    simp only [mem_cells_used, SimpleAllocator.mapInsert, hnone, Option.isSome_none,
      Bool.false_eq_true, if_false, Set.mem_union, Set.mem_sdiff, Set.mem_singleton_iff,
      reduceCtorEq, not_false_eq_true, and_true, Set.mem_image, Set.mem_ofPred_eq, and_false,
      exists_false, false_or, or_false, Cell.used.injEq]
    obtain ⟨o, sz⟩ := s
    by_cases ho : o = aligned
    · subst ho
      simp [hnone, eq_comm]
    · simp [ho]

theorem tiles_release {m : ℤ → Option ℤ} {F1 F2 : List Span} {I : Set ℤ} {o sz : ℤ}
    (h : Tiles Cell.bytes (cells m (F1 ++ F2)) I) (ho : m o = some sz) :
    Tiles Cell.bytes (cells (Function.update m o none) (F1 ++ ⟨o, sz⟩ :: F2)) I := by
  have hsz := used_pos h ho
  have hnew : Tiles Cell.bytes {.free ⟨o, sz⟩} (⋃ c ∈ ({.used ⟨o, sz⟩} : Set Cell), c.bytes) := by
    rw [Set.biUnion_singleton]
    exact Tiles.singleton (c := Cell.bytes) (i := .free ⟨o, sz⟩)
      ⟨o, show o ≤ o ∧ o < o + sz from ⟨le_rfl, by omega⟩⟩
  have hrep := h.replace (T := {.used ⟨o, sz⟩}) (by simpa using ho) hnew
  convert hrep using 1
  ext c
  cases c with
  | free s =>
    simp only [mem_cells_free, List.mem_append, List.mem_cons, Set.mem_union, Set.mem_sdiff,
      Set.mem_singleton_iff, reduceCtorEq, not_false_eq_true, and_true, Cell.free.injEq]
    tauto
  | used s =>
    obtain ⟨o', sz'⟩ := s
    simp only [mem_cells_used, Set.mem_union, Set.mem_sdiff, Set.mem_singleton_iff,
      Cell.used.injEq, Span.mk.injEq, reduceCtorEq, or_false]
    by_cases heq : o' = o
    · subst heq
      simp [ho, eq_comm]
    · simp [heq]

theorem tiles_merge {m : ℤ → Option ℤ} {F1 F2 : List Span} {x y : Span} {I : Set ℤ}
    (h : Tiles Cell.bytes (cells m (F1 ++ x :: y :: F2)) I) (hF : (F1 ++ x :: y :: F2).Nodup)
    (hxy : x.offset + x.size = y.offset) :
    Tiles Cell.bytes (cells m (F1 ++ ⟨x.offset, y.size + x.size⟩ :: F2)) I := by
  have hx := free_pos h (s := x) (by simp)
  have hy := free_pos h (s := y) (by simp)
  have hnew : Tiles Cell.bytes {.free ⟨x.offset, y.size + x.size⟩}
      (⋃ c ∈ ({.free x, .free y} : Set Cell), c.bytes) := by
    have hbytes : (⋃ c ∈ ({.free x, .free y} : Set Cell), c.bytes)
        = (Cell.free ⟨x.offset, y.size + x.size⟩).bytes := by
      rw [Set.biUnion_pair]
      simp only [Cell.bytes, Span.bytes, hxy]
      rw [Set.Ico_union_Ico_eq_Ico (by omega) (by omega)]
      congr 1
      omega
    rw [hbytes]
    exact Tiles.singleton ⟨x.offset, show x.offset ≤ x.offset ∧ x.offset < x.offset + _ from
      ⟨le_rfl, by simp only; omega⟩⟩
  have hrep := h.replace (T := {.free x, .free y}) (by
    rintro c (rfl | rfl) <;> simp) hnew
  convert hrep using 1
  simp only [List.nodup_append', List.nodup_cons, List.mem_cons, not_or] at hF
  obtain ⟨-, ⟨⟨hne, hx2⟩, hy2, -⟩, hdisj⟩ := hF
  have hx1 : x ∉ F1 := fun hm => hdisj hm (by simp)
  have hy1 : y ∉ F1 := fun hm => hdisj hm (by simp)
  ext c
  cases c with
  | free s =>
    simp only [mem_cells_free, List.mem_append, List.mem_cons, Set.mem_union, Set.mem_sdiff,
      Set.mem_insert_iff, Set.mem_singleton_iff, Cell.free.injEq, not_or]
    constructor
    · rintro (hs | hs | hs)
      · exact .inl ⟨.inl hs, fun heq => hx1 (heq ▸ hs), fun heq => hy1 (heq ▸ hs)⟩
      · exact .inr hs
      · exact .inl ⟨.inr (.inr (.inr hs)), fun heq => hx2 (heq ▸ hs), fun heq => hy2 (heq ▸ hs)⟩
    · rintro (⟨hs | hs | hs | hs, hnx, hny⟩ | hs)
      · exact .inl hs
      · exact absurd hs hnx
      · exact absurd hs hny
      · exact .inr (.inr hs)
      · exact .inr (.inl hs)
  | used s => simp

theorem tiles_split {m : ℤ → Option ℤ} {F : List Span} {I : Set ℤ} {o sub sz : ℤ}
    (h : Tiles Cell.bytes (cells m F) I) (ho : m o = some sz) (hlo : 0 < sub) (hhi : sub < sz) :
    Tiles Cell.bytes
      (cells (Function.update (Function.update m o (some sub)) (o + sub) (some (sz - sub))) F)
      I := by
  have hne : o + sub ≠ o := by omega
  have hinside : m (o + sub) = none := not_tracked_inside h ho (by omega) (by omega)
  have hnew : Tiles Cell.bytes ({.used ⟨o, sub⟩} ∪ {.used ⟨o + sub, sz - sub⟩})
      (⋃ c ∈ ({.used ⟨o, sz⟩} : Set Cell), c.bytes) := by
    have h1 : Tiles Cell.bytes {.used ⟨o, sub⟩} (Set.Ico o (o + sub)) :=
      Tiles.singleton (c := Cell.bytes) ⟨o, show o ≤ o ∧ o < o + sub from ⟨le_rfl, by omega⟩⟩
    have h2 : Tiles Cell.bytes {.used ⟨o + sub, sz - sub⟩}
        (Set.Ico (o + sub) (o + sub + (sz - sub))) :=
      Tiles.singleton (c := Cell.bytes) ⟨o + sub, show o + sub ≤ o + sub ∧ _ by
        exact ⟨le_rfl, by simp only; omega⟩⟩
    have hall := h1.union h2 Set.Ico_disjoint_Ico_same
    rw [Set.Ico_union_Ico_eq_Ico (by omega) (by omega)] at hall
    have hbytes : (⋃ c ∈ ({.used ⟨o, sz⟩} : Set Cell), c.bytes)
        = Set.Ico o (o + sub + (sz - sub)) := by
      simp only [Set.biUnion_singleton, Cell.bytes, Span.bytes]
      congr 1
      omega
    rw [hbytes]
    exact hall
  have hrep := h.replace (T := {.used ⟨o, sz⟩}) (by simpa using ho) hnew
  convert hrep using 1
  ext c
  cases c with
  | free s => simp
  | used s =>
    obtain ⟨o', sz'⟩ := s
    simp only [mem_cells_used, Set.mem_union, Set.mem_sdiff, Set.mem_singleton_iff,
      Cell.used.injEq, Span.mk.injEq]
    by_cases heq2 : o' = o + sub
    · subst heq2
      simp [hinside, hne, eq_comm]
    · by_cases heq1 : o' = o
      · subst heq1
        simp [ho, heq2, eq_comm]
      · simp [heq1, heq2]

namespace SimpleAllocator

/-- The invariant: a doubly linked list of free blocks in order with gaps between
them, which together with the tracked blocks tile the range. -/
structure Inv (start size : ℤ) (a : SimpleAllocator) (l : List (ℕ × Span)) : Prop where
  links : Represents a l
  separated : Separated (l.map Prod.snd)
  tiles : Tiles Cell.bytes (cells a.allocatedBlocks (l.map Prod.snd)) (Set.Ico start (start + size))

theorem new_inv (startOffset : ℤ) {size : ℤ} (hsize : 0 < size) :
    Inv startOffset size (new startOffset size) [(0, ⟨startOffset, size⟩)] := by
  refine ⟨new_represents _ _, by simp [Separated], ?_⟩
  have hone : Tiles Cell.bytes {.free ⟨startOffset, size⟩}
      (Set.Ico startOffset (startOffset + size)) :=
    Tiles.singleton (c := Cell.bytes) ⟨startOffset, show startOffset ≤ startOffset ∧ _ by
      exact ⟨le_rfl, by simpa using hsize⟩⟩
  convert hone using 1
  ext c
  cases c <;> simp [new]

theorem Inv.free_nodup {start size : ℤ} {a : SimpleAllocator} {l : List (ℕ × Span)}
    (h : Inv start size a l) : (l.map Prod.snd).Nodup :=
  h.separated.ordered.nodup fun _ hs => free_pos h.tiles hs

/-! ### allocate -/

theorem le_ALIGN {x a : ℤ} (ha : 0 < a) : x ≤ ALIGN x a := by
  unfold ALIGN
  have := Int.tmod_lt_of_pos x ha
  split <;> omega

theorem ALIGN_le {x a : ℤ} (hx : 0 ≤ x) : ALIGN x a ≤ x + (a - 1) ∨ a ≤ 0 := by
  unfold ALIGN
  have h0 := Int.tmod_nonneg a hx
  split <;> omega

/-- A request that fits leaves a hole of non-negative size on each side. -/
theorem fit_spec {v : Span} {size alignment : ℤ} {bFwd : Bool} {f : Fit} (ha : 0 < alignment)
    (h : fit v size alignment bFwd = some f) :
    0 ≤ f.spaceOnLeft ∧ 0 ≤ f.spaceOnRight ∧ f.aligned = v.offset + f.spaceOnLeft ∧
      v.size = f.spaceOnLeft + size + f.spaceOnRight := by
  unfold fit at h
  cases bFwd with
  | true =>
    have hle := le_ALIGN (x := v.offset) ha
    simp only [if_true] at h
    split at h
    · cases h
    · rw [Option.some_inj] at h
      subst h
      simp only
      omega
  | false =>
    simp only [Bool.false_eq_true, if_false] at h
    split at h
    · cases h
    · rename_i hun
      have hle := ALIGN_le (x := v.offset + v.size - size - (alignment - 1)) (a := alignment)
        (by omega)
      split at h
      · cases h
      · rw [Option.some_inj] at h
        subst h
        simp only
        omega

theorem mem_hole {o sz : ℤ} {s : Span} : s ∈ hole o sz ↔ sz ≠ 0 ∧ s = ⟨o, sz⟩ := by
  unfold hole
  split <;> simp_all

theorem separated_allocate {F1 F2 : List Span} {v : Span} {aligned size L R : ℤ}
    (h : Separated (F1 ++ v :: F2)) (hL : 0 ≤ L) (hR : 0 ≤ R) (hsize : 0 < size)
    (ha : aligned = v.offset + L) (hv : v.size = L + size + R) :
    Separated (F1 ++ (hole v.offset L ++ hole (aligned + size) R) ++ F2) := by
  simp only [Separated, List.pairwise_append, List.pairwise_cons, List.mem_cons, forall_eq_or_imp,
    List.mem_append, mem_hole] at h ⊢
  obtain ⟨h1, ⟨hv2, h2⟩, h12⟩ := h
  refine ⟨⟨h1, ⟨?_, ?_, ?_⟩, ?_⟩, h2, ?_⟩
  · unfold hole
    split <;> simp
  · unfold hole
    split <;> simp
  · rintro _ ⟨-, rfl⟩ _ ⟨-, rfl⟩
    simp only
    omega
  · rintro s hs _ (⟨-, rfl⟩ | ⟨-, rfl⟩)
    · exact (h12 s hs).1
    · have := (h12 s hs).1
      simp only
      omega
  · rintro s (hs | ⟨-, rfl⟩ | ⟨-, rfl⟩) t ht
    · exact (h12 s hs).2 t ht
    · have := hv2 t ht
      simp only
      omega
    · have := hv2 t ht
      simp only
      omega

/-- `allocate` answers; it either leaves the allocator alone, since no free block fits, or carves
the piece it returns out of a free block and tracks it. -/
theorem allocate_spec {start total size alignment : ℤ} {a : SimpleAllocator}
    {l : List (ℕ × Span)} (h : Inv start total a l) (hsize : 0 < size) (ha : 0 < alignment)
    (bFwd : Bool) :
    a.allocate size alignment bFwd = some (a, -1) ∧
        (∀ x ∈ l, fit x.2 size alignment bFwd = none) ∨
      ∃ a' l' o, a.allocate size alignment bFwd = some (a', o) ∧ Inv start total a' l' ∧
        a.allocatedBlocks o = none ∧
        a'.allocatedBlocks = Function.update a.allocatedBlocks o (some size) ∧
        start ≤ o ∧ o + size ≤ start + total ∧
        ∃ x ∈ l, ∃ f, fit x.2 size alignment bFwd = some f ∧ f.aligned = o := by
  rcases search_spec h.links size alignment bFwd with ⟨hnone, hfull⟩ | ⟨r, l1, v, l2, hsome, hhit⟩
  · left
    refine ⟨?_, hfull⟩
    simp only [allocate, hnone]
  · right
    obtain ⟨rfl, hnode, hfit⟩ := hhit
    obtain ⟨hL, hR, hal, hvsz⟩ := fit_spec ha hfit
    obtain ⟨a', m, hplace, hrep, hm, hmap⟩ := place_spec h.links size r.2.2
    have hF := h.free_nodup
    have hsep := h.separated
    have htiles := h.tiles
    simp only [List.map_append, List.map_cons] at hF hsep htiles
    have hnone : a.allocatedBlocks r.2.2.aligned = none :=
      not_tracked_of_free htiles (s := v) (by simp) (by omega)
    have hsub := htiles.subset (i := .free v) (by simp)
    have hlo : v.offset ∈ Set.Ico start (start + total) :=
      hsub ⟨le_rfl, by omega⟩
    have hhi : v.offset + v.size - 1 ∈ Set.Ico start (start + total) :=
      hsub (show v.offset ≤ v.offset + v.size - 1 ∧ v.offset + v.size - 1 < v.offset + v.size by
        omega)
    refine ⟨a', l1 ++ m ++ l2, r.2.2.aligned, ?_, ⟨hrep, ?_, ?_⟩, hnone, ?_, ?_, ?_,
      (r.1, v), by simp, r.2.2, hfit, rfl⟩
    · simp only [allocate, hsome]
      rw [hnode]
      exact hplace
    · simpa [hm] using separated_allocate hsep hL hR hsize hal hvsz
    · rw [hmap]
      simpa [hm] using tiles_allocate htiles hF hL hR hsize hal hvsz
    · rw [hmap, mapInsert, hnone]
      rfl
    · have := hlo.1
      omega
    · have := hhi.2
      omega

/-- The free block behind all tracked blocks. -/
theorem Inv.last_free {total U : ℤ} {a : SimpleAllocator} {l : List (ℕ × Span)}
    (h : Inv 0 total a l) (hU : 0 ≤ U) (hroom : U < total)
    (hlow : ∀ o sz, a.allocatedBlocks o = some sz → o + sz ≤ U) :
    ∃ x ∈ l, 0 ≤ x.2.offset ∧ x.2.offset ≤ U ∧ x.2.offset + x.2.size = total ∧
      ∀ y ∈ l, y = x ∨ y.2.offset + y.2.size < x.2.offset := by
  -- a byte from `U` on is free
  have hfree : ∀ b, U ≤ b → b < total → ∃ x ∈ l, x.2.offset ≤ b ∧ b < x.2.offset + x.2.size := by
    intro b hb hlt
    have hmem : b ∈ Set.Ico 0 (0 + total) := ⟨by omega, by omega⟩
    rw [← h.tiles.cover, Set.mem_iUnion₂] at hmem
    obtain ⟨c, hc, hbc⟩ := hmem
    cases c with
    | free s =>
      obtain ⟨x, hx, rfl⟩ := List.mem_map.mp hc
      exact ⟨x, hx, hbc⟩
    | used s =>
      have hend := hlow _ _ hc
      have hlt : b < s.offset + s.size := hbc.2
      omega
  have hinside : ∀ x ∈ l, 0 ≤ x.2.offset ∧ x.2.offset + x.2.size ≤ total := by
    intro x hx
    have hcell : x.2 ∈ l.map Prod.snd := List.mem_map_of_mem hx
    have hpos := free_pos h.tiles hcell
    have hsub := h.tiles.subset (i := .free x.2) hcell
    have hlo : x.2.offset ∈ Set.Ico 0 (0 + total) := hsub ⟨le_rfl, by omega⟩
    have hhi : x.2.offset + x.2.size - 1 ∈ Set.Ico 0 (0 + total) :=
      hsub ⟨by omega, by omega⟩
    exact ⟨hlo.1, by have := hhi.2; omega⟩
  have hsep : ∀ x ∈ l, ∀ y ∈ l, x ≠ y →
      x.2.offset + x.2.size < y.2.offset ∨ y.2.offset + y.2.size < x.2.offset := by
    let R (x y : ℕ × Span) : Prop :=
      x.2.offset + x.2.size < y.2.offset ∨ y.2.offset + y.2.size < x.2.offset
    have hsymm : Std.Symm R := ⟨fun _ _ => Or.symm⟩
    have hpair : l.Pairwise R := (List.pairwise_map.mp h.separated).imp Or.inl
    exact fun x hx y hy hne => hpair.forall hx hy hne
  obtain ⟨x, hx, hlo, hhi⟩ := hfree (total - 1) (by omega) (by omega)
  have hx' := hinside x hx
  refine ⟨x, hx, hx'.1, ?_, by omega, fun y hy => ?_⟩
  · -- the block before would touch this one
    by_contra hgt
    obtain ⟨y, hy, hlo', hhi'⟩ := hfree (x.2.offset - 1) (by omega) (by omega)
    have hne : x ≠ y := by
      rintro rfl
      omega
    have := hsep x hx y hy hne
    omega
  · by_cases heq : y = x
    · exact .inl heq
    · have := hsep y hy x hx heq
      have := (hinside y hy).2
      have := free_pos h.tiles (List.mem_map_of_mem (f := Prod.snd) hy)
      exact .inr (by omega)

theorem ALIGN_le_of_dvd {x a U : ℤ} (hx : 0 ≤ x) (ha : 0 < a) (hle : x ≤ U) (hU : a ∣ U) :
    ALIGN x a ≤ U := by
  obtain ⟨k, rfl⟩ := hU
  have hdiv := Int.mul_tdiv_add_tmod x a
  have hpos := Int.tmod_nonneg a hx
  unfold ALIGN
  split
  · have hlt : a * x.tdiv a < a * k := by omega
    have hsucc : a * (x.tdiv a + 1) ≤ a * k :=
      mul_le_mul_of_nonneg_left (Int.add_one_le_iff.mpr (lt_of_mul_lt_mul_left hlt ha.le)) ha.le
    rw [mul_add, mul_one] at hsucc
    omega
  · exact hle

/-- With all tracked blocks below `U` and room for the request behind it, the search from the head
finds a place that starts no later than at `U`. -/
theorem allocate_room {total size alignment U : ℤ} {a : SimpleAllocator} {l : List (ℕ × Span)}
    (h : Inv 0 total a l) (hsize : 0 < size) (ha : 0 < alignment) (hU : 0 ≤ U)
    (hdvd : alignment ∣ U) (hroom : U + size ≤ total)
    (hlow : ∀ o sz, a.allocatedBlocks o = some sz → o + sz ≤ U) :
    ∃ a' l' o, a.allocate size alignment true = some (a', o) ∧ Inv 0 total a' l' ∧
      a.allocatedBlocks o = none ∧
      a'.allocatedBlocks = Function.update a.allocatedBlocks o (some size) ∧
      0 ≤ o ∧ o + size ≤ U + size := by
  obtain ⟨x, hx, hlo, hle, hend, hbefore⟩ := h.last_free hU (by omega) hlow
  have halign := ALIGN_le_of_dvd hlo ha hle hdvd
  rcases allocate_spec h hsize ha true with ⟨-, hfull⟩ | ⟨a', l', o, hsome, hinv, hnone, hblocks,
    hstart, -, y, hy, f, hfit, rfl⟩
  · have hfull := hfull x hx
    simp only [fit, if_true] at hfull
    split at hfull
    · omega
    · cases hfull
  · refine ⟨a', l', _, hsome, hinv, hnone, hblocks, hstart, ?_⟩
    obtain ⟨-, hright, haligned, hsz⟩ := fit_spec ha hfit
    rcases hbefore y hy with rfl | hlt
    · simp only [fit, if_true] at hfit
      split at hfit
      · cases hfit
      · rw [← Option.some_inj.mp hfit]
        simp only
        omega
    · omega

/-! ### deallocate -/

/-- The freed block `n` among the free blocks before (`F1`) and behind it (`F2`): in
order, `n` possibly touching its neighbours. -/
structure Gap (F1 : List Span) (n : Span) (F2 : List Span) : Prop where
  before : Separated F1
  behind : Separated F2
  apart : ∀ s ∈ F1, ∀ t ∈ F2, s.offset + s.size < t.offset
  left : ∀ s ∈ F1, s.offset + s.size ≤ n.offset
  right : ∀ t ∈ F2, n.offset + n.size ≤ t.offset

theorem Gap.ordered {F1 F2 : List Span} {n : Span} (h : Gap F1 n F2) :
    Ordered (F1 ++ n :: F2) := by
  simp only [Ordered, List.pairwise_append, List.pairwise_cons, List.mem_cons, forall_eq_or_imp]
  refine ⟨h.before.ordered, ⟨h.right, h.behind.ordered⟩, fun s hs => ⟨h.left s hs, ?_⟩⟩
  exact fun t ht => (h.apart s hs t ht).le

theorem Gap.nodup {m : ℤ → Option ℤ} {F1 F2 : List Span} {n : Span} {I : Set ℤ}
    (h : Gap F1 n F2) (ht : Tiles Cell.bytes (cells m (F1 ++ n :: F2)) I) :
    (F1 ++ n :: F2).Nodup := h.ordered.nodup fun _ hs => free_pos ht hs

/-- `coalesce(list, newBlock)`: afterwards there is a gap before the block. -/
theorem coalesce_left {a : SimpleAllocator} {k1 k2 : List (ℕ × Span)} {n : ℕ × Span}
    {m : ℤ → Option ℤ} {I : Set ℤ} (hrep : Represents a (k1 ++ n :: k2))
    (ht : Tiles Cell.bytes (cells m (k1.map Prod.snd ++ n.2 :: k2.map Prod.snd)) I)
    (hgap : Gap (k1.map Prod.snd) n.2 (k2.map Prod.snd)) :
    ∃ a' j v, a.coalesce (lst none k1) (some n.1) = some a' ∧
      a'.allocatedBlocks = a.allocatedBlocks ∧ Represents a' (j ++ (n.1, v) :: k2) ∧
      Tiles Cell.bytes (cells m (j.map Prod.snd ++ v :: k2.map Prod.snd)) I ∧
      Gap (j.map Prod.snd) v (k2.map Prod.snd) ∧
      ∀ s ∈ j.map Prod.snd, s.offset + s.size < v.offset := by
  rcases eq_nil_or_snoc k1 with rfl | ⟨k, x, rfl⟩
  · exact ⟨a, [], n.2, by simp [coalesce], rfl, hrep, ht, hgap, by simp⟩
  · have hrep' : Represents a (k ++ x :: n :: k2) := by simpa using hrep
    have hx : 0 < x.2.size := free_pos ht (by simp)
    have hxn := hgap.left x.2 (by simp)
    obtain ⟨a', hc, hm, hcase⟩ := coalesce_spec hrep' (by omega)
    have hbefore := hgap.before
    simp only [Separated, List.map_append, List.map_cons, List.map_nil, List.pairwise_append,
      List.mem_singleton, forall_eq] at hbefore
    by_cases hadj : x.2.offset + x.2.size = n.2.offset
    · rw [if_pos hadj] at hcase
      refine ⟨a', k, _, by simpa using hc, hm, hcase, ?_, ⟨hbefore.1, hgap.behind, ?_, ?_, ?_⟩, ?_⟩
      · have hnd := hgap.nodup ht
        simp only [List.map_append, List.map_cons, List.map_nil, List.append_assoc,
          List.cons_append, List.nil_append] at ht hnd
        exact tiles_merge ht hnd hadj
      · exact fun s hs t ht' => hgap.apart s (by simp_all) t ht'
      · exact fun s hs => (hbefore.2.2 s hs).le
      · intro t ht'
        have := hgap.right t ht'
        simp only
        omega
      · exact fun s hs => hbefore.2.2 s hs
    · rw [if_neg hadj] at hcase
      refine ⟨a', k ++ [x], n.2, by simpa using hc, hm, hcase ▸ hrep, ht, hgap, fun s hs => ?_⟩
      simp only [List.map_append, List.map_cons, List.map_nil, List.mem_append,
        List.mem_singleton] at hs
      rcases hs with hs | rfl
      · have := hbefore.2.2 s hs
        omega
      · omega

/-- `coalesce(newBlock, next)`: afterwards there is a gap on both sides. -/
theorem coalesce_right {a : SimpleAllocator} {j k2 : List (ℕ × Span)} {n : ℕ × Span}
    {m : ℤ → Option ℤ} {I : Set ℤ} (hrep : Represents a (j ++ n :: k2))
    (ht : Tiles Cell.bytes (cells m (j.map Prod.snd ++ n.2 :: k2.map Prod.snd)) I)
    (hgap : Gap (j.map Prod.snd) n.2 (k2.map Prod.snd))
    (hleft : ∀ s ∈ j.map Prod.snd, s.offset + s.size < n.2.offset) :
    ∃ a' l', a.coalesce (some n.1) (hd k2 none) = some a' ∧
      a'.allocatedBlocks = a.allocatedBlocks ∧ Represents a' l' ∧
      Tiles Cell.bytes (cells m (l'.map Prod.snd)) I ∧ Separated (l'.map Prod.snd) := by
  cases k2 with
  | nil =>
    refine ⟨a, j ++ [n], by simp [coalesce], rfl, hrep, by simpa using ht, ?_⟩
    have := hgap.before
    simp only [Separated, List.map_append, List.map_cons, List.map_nil, List.pairwise_append,
      List.pairwise_singleton, List.mem_singleton, forall_eq, true_and] at this ⊢
    exact ⟨this, hleft⟩
  | cons y k =>
    have hn : 0 < n.2.size := free_pos ht (by simp)
    have hny := hgap.right y.2 (by simp)
    obtain ⟨a', hc, hm, hcase⟩ := coalesce_spec hrep (by omega)
    have hbehind := hgap.behind
    simp only [Separated, List.map_cons, List.pairwise_cons] at hbehind
    by_cases hadj : n.2.offset + n.2.size = y.2.offset
    · rw [if_pos hadj] at hcase
      have hmerge := tiles_merge ht (hgap.nodup ht) hadj
      refine ⟨a', _, hc, hm, hcase, by simpa using hmerge, ?_⟩
      simp only [Separated, List.map_append, List.map_cons, List.pairwise_append,
        List.pairwise_cons, List.mem_cons, forall_eq_or_imp]
      refine ⟨hgap.before, ⟨fun t ht' => ?_, hbehind.2⟩, fun s hs => ⟨hleft s hs, fun t ht' => ?_⟩⟩
      · have := hbehind.1 t ht'
        omega
      · exact hgap.apart s hs t (by simp_all)
    · rw [if_neg hadj] at hcase
      refine ⟨a', j ++ n :: y :: k, hc, hm, hcase ▸ hrep, by simpa using ht, ?_⟩
      simp only [Separated, List.map_append, List.map_cons, List.pairwise_append,
        List.pairwise_cons, List.mem_cons, forall_eq_or_imp]
      refine ⟨hgap.before, ⟨⟨by omega, fun t ht' => ?_⟩, hbehind⟩, fun s hs => ⟨hleft s hs, ?_, ?_⟩⟩
      · have := hbehind.1 t ht'
        have hy : 0 < y.2.size := free_pos ht (by simp)
        omega
      · exact hgap.apart s hs y.2 (by simp)
      · exact fun t ht' => hgap.apart s hs t (by simp_all)

/-- The gap `deallocate` finds is the place of the block it frees. -/
theorem gap_of_split {m : ℤ → Option ℤ} {k1 k2 : List (ℕ × Span)} {I : Set ℤ} {o sz : ℤ}
    (ht : Tiles Cell.bytes (cells m (k1.map Prod.snd ++ k2.map Prod.snd)) I) (ho : m o = some sz)
    (hsep : Separated (k1.map Prod.snd ++ k2.map Prod.snd))
    (hge : ∀ x ∈ k2, o ≤ x.2.offset) (hlast : ∀ x k, k1 = k ++ [x] → x.2.offset < o) :
    Gap (k1.map Prod.snd) ⟨o, sz⟩ (k2.map Prod.snd) := by
  obtain ⟨h1, h2, h12⟩ := List.pairwise_append.mp hsep
  have hsz := used_pos ht ho
  -- A free block that starts before `o` ends before it, since `o` is tracked.
  have hend : ∀ s ∈ k1.map Prod.snd, s.offset < o → s.offset + s.size ≤ o := by
    intro s hs hlt
    by_contra hno
    exact free_not_used ht (s := s) (b := o) (by simp only [List.mem_append]; exact .inl hs) ho
      (by omega) (by omega)
  refine ⟨h1, h2, h12, fun s hs => ?_, fun t ht' => ?_⟩
  · rcases eq_nil_or_snoc k1 with rfl | ⟨k, x, rfl⟩
    · simp at hs
    · have hxo := hlast x k rfl
      have hx := hend x.2 (by simp) hxo
      simp only [List.map_append, List.map_cons, List.map_nil, List.mem_append,
        List.mem_singleton] at hs h1
      rcases hs with hs | rfl
      · have hsx := (List.pairwise_append.mp h1).2.2 s hs x.2 (by simp)
        have : 0 < x.2.size := free_pos ht (by simp)
        simp only
        omega
      · exact hx
  · obtain ⟨x, hx, rfl⟩ := List.mem_map.mp ht'
    have hox := hge x hx
    by_contra hno
    have hpos : 0 < x.2.size := free_pos ht (by simp only [List.mem_append]; exact .inr ht')
    exact free_not_used ht (s := x.2) (b := x.2.offset)
      (by simp only [List.mem_append]; exact .inr ht') ho (by omega) (by simp only at hno; omega)

/-- `deallocate` of a tracked block answers, and frees exactly that block. -/
theorem deallocate_spec {start total : ℤ} {a : SimpleAllocator} {l : List (ℕ × Span)}
    (h : Inv start total a l) {o sz : ℤ} (ho : a.allocatedBlocks o = some sz) :
    ∃ a' l', a.deallocate o = some a' ∧ Inv start total a' l' ∧
      a'.allocatedBlocks = Function.update a.allocatedBlocks o none := by
  obtain ⟨k1, k2, rfl, hfind, hge, hlast⟩ := findGap_spec h.links o (n := a.fresh) []
    (List.append_nil l).symm h.links.length_le (by simp)
  have htiles := h.tiles
  have hsep := h.separated
  rw [List.map_append] at htiles hsep
  have hgap := gap_of_split htiles ho hsep hge hlast
  have hrel := tiles_release htiles ho
  -- The two assertions on the neighbours.
  have hbefore : endsBefore a.blockPool (lst none k1) o = true := by
    rcases eq_nil_or_snoc k1 with rfl | ⟨k, x, rfl⟩
    · rfl
    · have hrep : Represents a (k ++ x :: k2) := by simpa using h.links
      have := hgap.left x.2 (by simp)
      simpa [endsBefore, hrep.node] using this
  have hafter : startsAfter a.blockPool (hd k2 none) (o + sz) = true := by
    cases k2 with
    | nil => rfl
    | cons y k =>
      have := hgap.right y.2 (by simp)
      simpa [startsAfter, h.links.node] using this
  have hrep1 := insert_spec h.links ⟨o, sz⟩
  obtain ⟨a2, j, v, hc2, hm2, hrep2, ht2, hgap2, hleft2⟩ := coalesce_left hrep1 hrel hgap
  obtain ⟨a3, l', hc3, hm3, hrep3, ht3, hsep3⟩ := coalesce_right hrep2 ht2 hgap2 hleft2
  have hmap : a3.allocatedBlocks = a.allocatedBlocks := by
    rw [hm3, hm2]
    rfl
  refine ⟨{ a3 with allocatedBlocks := Function.update a3.allocatedBlocks o none }, l', ?_,
    ⟨⟨hrep3.head, hrep3.tail, hrep3.chain, hrep3.nodup, hrep3.bound⟩, hsep3, ?_⟩, ?_⟩
  · rw [hd_nil, ← h.links.tail] at hfind
    simp only [deallocate, ho, hfind, hbefore, hafter, Bool.and_self, if_true]
    split
    · exact (congrArg _ (congrArg (Option.bind · _) hc2)).trans (congrArg _ hc3)
    · -- With no neighbour there is nothing to merge.
      rename_i hno
      simp only [Bool.or_eq_true, not_or, Bool.not_eq_true, Option.isSome_eq_false_iff,
        Option.isNone_iff_eq_none] at hno
      simp only [hno.1, hno.2, coalesce, Option.some_inj] at hc2 hc3
      simp only [hno.1, hno.2, Option.map_some, hc2, hc3]
  · rw [hmap]
    exact ht3
  · rw [hmap]

/-! ### splitBlock -/

/-- The byte belongs to a tracked block. -/
def Tracked (m : ℤ → Option ℤ) (b : ℤ) : Prop := ∃ o sz, m o = some sz ∧ o ≤ b ∧ b < o + sz

/-- If the byte behind a tracked block is tracked, a tracked block starts there. -/
theorem tracked_boundary {m : ℤ → Option ℤ} {F : List Span} {I : Set ℤ} {o sz : ℤ}
    (h : Tiles Cell.bytes (cells m F) I) (ho : m o = some sz) (hb : Tracked m (o + sz)) :
    (m (o + sz)).isSome := by
  obtain ⟨o', sz', ho', hlo, hhi⟩ := hb
  have hsz := used_pos h ho
  rcases hlo.lt_or_eq with hlt | rfl
  · have heq := used_unique h ho ho' (b := o + sz - 1) (by omega) (by omega)
    rw [← heq, ho, Option.some_inj] at ho'
    omega
  · simp [ho']

/-- The walk of `splitBlock` stays on tracked blocks and stops in the one where
`subOffset` ends. -/
theorem splitWalk_spec {m : ℤ → Option ℤ} {F : List Span} {I : Set ℤ}
    (h : Tiles Cell.bytes (cells m F) I) : ∀ {n : ℕ} {offset sub : ℤ}, (m offset).isSome →
      0 ≤ sub → sub < n → (∀ b, offset ≤ b → b ≤ offset + sub → Tracked m b) →
      ∃ o s sz, splitWalk m n offset sub = some (o, s, sz) ∧ m o = some sz ∧ 0 ≤ s ∧ s ≤ sz ∧
        o + s = offset + sub := by
  intro n
  induction n with
  | zero =>
    intro offset sub _ h0 hn
    simp only [Nat.cast_zero] at hn
    omega
  | succ n ih =>
    intro offset sub hsome h0 hn htr
    obtain ⟨size, hm⟩ := Option.isSome_iff_exists.mp hsome
    have hsize := used_pos h hm
    by_cases hgt : sub > size
    · have hnext : (m (offset + size)).isSome :=
        tracked_boundary h hm (htr _ (by omega) (by omega))
      have hrest : ∀ b, offset + size ≤ b → b ≤ offset + size + (sub - size) → Tracked m b :=
        fun b hb hb' => htr b (by omega) (by omega)
      obtain ⟨o, s, sz, hw, ho, hs0, hsz, heq⟩ := ih hnext (by omega) (by push_cast at hn; omega)
        hrest
      exact ⟨o, s, sz, by simpa [splitWalk, hm, hgt] using hw, ho, hs0, hsz, by omega⟩
    · exact ⟨offset, sub, size, by simp [splitWalk, hm, hgt], hm, h0, by omega, rfl⟩

/-- `splitBlock` inside tracked bytes answers.  It cuts one tracked block in two, or
finds the cut already there, and changes nothing else. -/
theorem splitBlock_spec {start total : ℤ} {a : SimpleAllocator} {l : List (ℕ × Span)}
    (h : Inv start total a l) {offset sub : ℤ} (hsome : (a.allocatedBlocks offset).isSome)
    (h0 : 0 ≤ sub) (htr : ∀ b, offset ≤ b → b ≤ offset + sub → Tracked a.allocatedBlocks b) :
    ∃ a', a.splitBlock offset sub = some a' ∧ Inv start total a' l ∧
      ((a' = a ∧ (a.allocatedBlocks (offset + sub)).isSome) ∨
        ∃ o s sz, a.allocatedBlocks o = some sz ∧ 0 < s ∧ s < sz ∧ o + s = offset + sub ∧
          a'.allocatedBlocks
            = Function.update (Function.update a.allocatedBlocks o (some s)) (o + s)
                (some (sz - s))) := by
  obtain ⟨o, s, sz, hw, ho, hs0, hsz, heq⟩ := splitWalk_spec h.tiles (n := sub.toNat + 1) hsome h0
    (by push_cast; omega) htr
  by_cases hs : s = 0
  · refine ⟨a, by simp [splitBlock, hw, hs], h, .inl ⟨rfl, ?_⟩⟩
    rw [← heq, hs, add_zero, ho]
    rfl
  · have hins : mapInsert (Function.update a.allocatedBlocks o none) o s
        = Function.update a.allocatedBlocks o (some s) := by
      simp [mapInsert]
    have hne : o + s ≠ o := by omega
    by_cases hend : s = sz
    · -- The cut is at the end of the block: the next tracked block starts there.
      subst hend
      have hnext : (a.allocatedBlocks (o + s)).isSome :=
        tracked_boundary h.tiles ho (htr _ (by have := used_pos h.tiles ho; omega) (by omega))
      refine ⟨a, ?_, h, .inl ⟨rfl, heq ▸ hnext⟩⟩
      have hsame : Function.update a.allocatedBlocks o (some s) = a.allocatedBlocks := by
        rw [← ho]
        exact Function.update_eq_self o _
      simp only [splitBlock, hw, hs, if_false, hins, hsame]
      simp [mapInsert, hnext]
    · have hnone : a.allocatedBlocks (o + s) = none :=
        not_tracked_inside h.tiles ho (by omega) (by omega)
      set m := Function.update (Function.update a.allocatedBlocks o (some s)) (o + s)
        (some (sz - s)) with hm
      refine ⟨{ a with allocatedBlocks := m }, ?_,
        ⟨⟨h.links.head, h.links.tail, h.links.chain, h.links.nodup, h.links.bound⟩, h.separated,
        tiles_split h.tiles ho (by omega) (lt_of_le_of_ne hsz hend)⟩,
        .inr ⟨o, s, sz, ho, by omega, by omega, heq, rfl⟩⟩
      simp only [splitBlock, hw, hs, if_false, hins]
      simp [mapInsert, Function.update_of_ne hne, hnone, hm]

/-! ### Whole runs -/

/-- The calls of the allocator. -/
inductive Call where
  | allocate (size alignment : ℤ) (bFwd : Bool)
  | deallocate (offset : ℤ)
  | splitBlock (offset subOffset : ℤ)

/-- A call, unless it asserts. -/
def next (a : SimpleAllocator) : Call → Option SimpleAllocator
  | .allocate size alignment bFwd => (a.allocate size alignment bFwd).map Prod.fst
  | .deallocate offset => a.deallocate offset
  | .splitBlock offset subOffset => a.splitBlock offset subOffset

/-- The calls the callers make: positive sizes and alignments, blocks that are tracked,
and cuts inside a piece of the file that is given out. -/
def Legit (a : SimpleAllocator) : Call → Prop
  | .allocate size alignment _ => 0 < size ∧ 0 < alignment
  | .deallocate offset => (a.allocatedBlocks offset).isSome
  | .splitBlock offset subOffset =>
    (a.allocatedBlocks offset).isSome ∧ 0 ≤ subOffset ∧
      ∀ b, offset ≤ b → b ≤ offset + subOffset → Tracked a.allocatedBlocks b

theorem next_spec {start total : ℤ} {a : SimpleAllocator} {l : List (ℕ × Span)} {c : Call}
    (h : Inv start total a l) (hc : Legit a c) :
    ∃ a' l', next a c = some a' ∧ Inv start total a' l' := by
  cases c with
  | allocate size alignment bFwd =>
    rcases allocate_spec h hc.1 hc.2 bFwd with ⟨hnone, -⟩ | ⟨a', l', o, hsome, hinv, -⟩
    · exact ⟨a, l, by simp [next, hnone], h⟩
    · exact ⟨a', l', by simp [next, hsome], hinv⟩
  | deallocate offset =>
    obtain ⟨sz, ho⟩ := Option.isSome_iff_exists.mp hc
    obtain ⟨a', l', he, hinv, -⟩ := deallocate_spec h ho
    exact ⟨a', l', he, hinv⟩
  | splitBlock offset subOffset =>
    obtain ⟨hsome, h0, htr⟩ := hc
    obtain ⟨a', he, hinv, -⟩ := splitBlock_spec h hsome h0 htr
    exact ⟨a', l, he, hinv⟩

/-- **The allocator invariant.**  For every range and every sequence of calls as the
callers make them, each call answers — no assertion fails, no dead pointer is followed,
every loop ends — and afterwards the free list is doubly linked, in order with a gap
between neighbours, every tracked block has a positive size, and the free and the tracked
blocks tile the initial range. -/
theorem allocator_invariant (startOffset : ℤ) {size : ℤ} (hsize : 0 < size) {cs : List Call}
    (hcs : Transition.StepsMeet next Legit (new startOffset size) cs) :
    ∃ a l, Transition.exec next (new startOffset size) cs = some a ∧
      Represents a l ∧ Separated (l.map Prod.snd) ∧
      (∀ o sz, a.allocatedBlocks o = some sz → 0 < sz) ∧
      Tiles Cell.bytes (cells a.allocatedBlocks (l.map Prod.snd))
        (Set.Ico startOffset (startOffset + size)) := by
  have hrun : ∀ {cs : List Call} {a : SimpleAllocator} {l : List (ℕ × Span)},
      Inv startOffset size a l → Transition.StepsMeet next Legit a cs →
      ∃ a' l', Transition.exec next a cs = some a' ∧ Inv startOffset size a' l' := by
    intro cs
    induction cs with
    | nil => exact fun h _ => ⟨_, _, rfl, h⟩
    | cons c cs ih =>
      intro a l h hc
      obtain ⟨a1, l1, he, hinv⟩ := next_spec h hc.1
      obtain ⟨a', l', he', hinv'⟩ := ih hinv (hc.2 a1 he)
      exact ⟨a', l', Transition.exec_cons_eq_some.mpr ⟨a1, he, he'⟩, hinv'⟩
  obtain ⟨a, l, he, hinv⟩ := hrun (new_inv startOffset hsize) hcs
  exact ⟨a, l, he, hinv.links, hinv.separated, fun o sz ho => used_pos hinv.tiles ho, hinv.tiles⟩

/-- A vector of two registers is carved out of the register file, split, and its second
register released. -/
theorem allocator_invariant_vector :
    ∃ a l, Transition.exec next (new 32 4064)
        [.allocate 64 32 true, .splitBlock 32 32, .deallocate 64] = some a ∧
      Represents a l ∧ Separated (l.map Prod.snd) ∧
      (∀ o sz, a.allocatedBlocks o = some sz → 0 < sz) ∧
      Tiles Cell.bytes (cells a.allocatedBlocks (l.map Prod.snd)) (Set.Ico 32 (32 + 4064)) := by
  refine allocator_invariant 32 (by decide) ⟨by simp [Legit], fun a1 h1 => ⟨?_, fun a2 h2 => ?_⟩⟩
  · obtain rfl := Option.some.inj h1
    refine ⟨rfl, by decide, fun b hlo hhi => ⟨32, 64, rfl, hlo, ?_⟩⟩
    omega
  · obtain rfl := Option.some.inj h1
    obtain rfl := Option.some.inj h2
    exact ⟨rfl, fun _ _ => trivial⟩

/-! ### The calls of the register allocator -/

/-- The pieces of `[o, o + size)` are all given out and one of them starts at `o`. -/
structure GivenOut (m : ℤ → Option ℤ) (o size : ℤ) : Prop where
  starts : (m o).isSome
  tracked : ∀ b, o ≤ b → b < o + size → Tracked m b

/-- Splitting cuts, it does not release. -/
theorem tracked_split {m : ℤ → Option ℤ} {o s sz b : ℤ} (ho : m o = some sz)
    (hnone : m (o + s) = none) (h0 : 0 < s) (hb : Tracked m b) :
    Tracked (Function.update (Function.update m o (some s)) (o + s) (some (sz - s))) b := by
  have hne : o ≠ o + s := by omega
  obtain ⟨o', sz', ho', hlo, hhi⟩ := hb
  by_cases hoo : o' = o
  · subst hoo
    rw [ho, Option.some_inj] at ho'
    subst ho'
    by_cases hbs : b < o' + s
    · exact ⟨o', s, by simp [Function.update_of_ne hne], hlo, hbs⟩
    · exact ⟨o' + s, sz - s, by simp, by omega, by omega⟩
  · have hos : o' ≠ o + s := by
      rintro rfl
      rw [hnone] at ho'
      cases ho'
    exact ⟨o', sz', by simp [hoo, hos, ho'], hlo, hhi⟩

theorem splitBlock_givenOut {start total : ℤ} {a a' : SimpleAllocator} {l : List (ℕ × Span)}
    (h : Inv start total a l) {o size sub : ℤ} (hg : GivenOut a.allocatedBlocks o size)
    (h0 : 0 ≤ sub) (hlt : sub < size) (he : a.splitBlock o sub = some a') :
    Inv start total a' l ∧ GivenOut a'.allocatedBlocks o size := by
  obtain ⟨a'', he', hinv, hcase⟩ := splitBlock_spec h hg.starts h0
    fun b hlo hhi => hg.tracked b hlo (by omega)
  obtain rfl : a'' = a' := Option.some.inj (he'.symm.trans he)
  refine ⟨hinv, ?_⟩
  rcases hcase with ⟨rfl, -⟩ | ⟨o', s, sz, ho', hs0, hslt, -, hm⟩
  · exact hg
  · have hnone := not_tracked_inside h.tiles ho' (b := o' + s) (by omega) (by omega)
    rw [hm]
    refine ⟨?_, fun b hlo hhi => tracked_split ho' hnone hs0 (hg.tracked b hlo hhi)⟩
    by_cases h1 : o = o' + s
    · simp [h1]
    · by_cases h2 : o = o'
      · simp [h2, hs0.ne']
      · simpa [h1, h2] using hg.starts

end SimpleAllocator

end Backend
