/-
Copies by a work-group: `async_work_group_copy` and `async_work_group_strided_copy`
(`ocl_async.cl`).

The work-items take their steps in any order; a step tests, loads an element or stores one.
`log` lists the elements as they are stored.
Local and global memory are one array of bytes here, so two buffers that are apart have
different numbers also where they are in different spaces.

* `next_keeps` — a step of a work-item keeps what is known of all of them;
* `count_le` — each work-item returns;
* **`work_group_copied`** — when all have returned, the elements below `num` have been stored, once
  each.
-/
import Beignet.Lib.Transition
import Beignet.Lib.Writes

namespace Runtime

namespace AsyncCopy

/-! ### The work-group -/

/-- The library is built for pointers of 32 bits and of 64. -/
inductive Target where
  | spir
  | spir64

def Target.bits : Target → ℕ
  | spir => 32
  | spir64 => 64

/-- A local size with fewer than `2 ^ 31` work-items. -/
structure LocalSize where
  x : BitVec 32
  y : BitVec 32
  z : BitVec 32
  pos : 0 < x.toNat ∧ 0 < y.toNat ∧ 0 < z.toNat
  lt : z.toNat * y.toNat * x.toNat < 2 ^ 31

/-- A local id. -/
structure Item (g : LocalSize) where
  x : Fin g.x.toNat
  y : Fin g.y.toNat
  z : Fin g.z.toNat
  deriving DecidableEq

variable {t : Target} {g : LocalSize}

def get_local_size (t : Target) (g : LocalSize) : ℕ → BitVec t.bits
  | 0 => g.x.setWidth _
  | 1 => g.y.setWidth _
  | 2 => g.z.setWidth _
  | _ => 1

def get_local_id (t : Target) (it : Item g) : ℕ → BitVec t.bits
  | 0 => BitVec.ofNat _ it.x
  | 1 => BitVec.ofNat _ it.y
  | 2 => BitVec.ofNat _ it.z
  | _ => 0

/-! ### The functions -/

inductive Builtin (t : Target) where
  | async_work_group_copy
  /-- to local memory -/
  | async_work_group_strided_copy_local (src_stride : BitVec t.bits)
  /-- to global memory -/
  | async_work_group_strided_copy_global (dst_stride : BitVec t.bits)

def Builtin.SRC_STRIDE : Builtin t → BitVec t.bits
  | async_work_group_strided_copy_local src_stride => src_stride
  | _ => 1

def Builtin.DST_STRIDE : Builtin t → BitVec t.bits
  | async_work_group_strided_copy_global dst_stride => dst_stride
  | _ => 1

structure Call (t : Target) where
  builtin : Builtin t
  dst : BitVec t.bits
  src : BitVec t.bits
  num : BitVec t.bits
  /-- `sizeof(TYPE)` -/
  elem : ℕ
  elem_pos : 0 < elem

variable (c : Call t)

/-- `dst + offset * DST_STRIDE` -/
def Call.dstAddr (offset : BitVec 32) : BitVec t.bits :=
  c.dst + offset.setWidth _ * c.builtin.DST_STRIDE * BitVec.ofNat _ c.elem

/-- `src + offset * SRC_STRIDE` -/
def Call.srcAddr (offset : BitVec 32) : BitVec t.bits :=
  c.src + offset.setWidth _ * c.builtin.SRC_STRIDE * BitVec.ofNat _ c.elem

abbrev Mem (t : Target) := BitVec t.bits → BitVec 8

/-- The bytes of an element. -/
def load (elem : ℕ) (m : Mem t) (a : BitVec t.bits) : List (BitVec 8) :=
  (List.range elem).map fun b => m (a + BitVec.ofNat _ b)

/-- An element with the address where it is stored. -/
abbrev Store (t : Target) := BitVec t.bits × List (BitVec 8)

def Store.writes (w : Store t) : List (BitVec t.bits × BitVec 8) :=
  (List.range w.2.length).map fun b => (w.1 + BitVec.ofNat _ b, w.2.getD b 0)

/-- Where a work-item is in `BODY`. -/
inductive Pc where
  /-- at the test of the loop -/
  | loop
  /-- the loop has loaded an element -/
  | body (value : List (BitVec 8))
  /-- the remainder has been loaded -/
  | rest (value : List (BitVec 8))
  | done

structure Locals where
  pc : Pc
  i : BitVec 32
  offset : BitVec 32

structure State (t : Target) (g : LocalSize) where
  items : Item g → Locals
  mem : Mem t
  log : List (Item g × Store t)

def size (t : Target) (g : LocalSize) : BitVec 32 :=
  (get_local_size t g 2 * get_local_size t g 1 * get_local_size t g 0).setWidth 32

def count (g : LocalSize) : BitVec 32 := (c.num / (size t g).setWidth _).setWidth 32

/-- The locals before the loop. -/
def enter (t : Target) (it : Item g) : Locals :=
  let offset : BitVec 32 :=
    (get_local_id t it 2 * get_local_size t g 1 + get_local_id t it 1).setWidth 32
  let offset : BitVec 32 :=
    (offset.setWidth t.bits * get_local_size t g 0 + get_local_id t it 0).setWidth 32
  ⟨.loop, 0, offset⟩

def start (t : Target) (g : LocalSize) (m : Mem t) : State t g := ⟨enter t, m, []⟩

def State.set (s : State t g) (it : Item g) (l : Locals) : State t g :=
  { s with items := Function.update s.items it l }

/-- `*(dst + offset * DST_STRIDE) =` the loaded element -/
def State.store (s : State t g) (it : Item g) (value : List (BitVec 8)) : State t g :=
  let w : Store t := (c.dstAddr (s.items it).offset, value)
  { s with mem := Writes.write (Store.writes w) s.mem, log := s.log ++ [(it, w)] }

/-- A step of a work-item. -/
def next (s : State t g) (it : Item g) : Option (State t g) :=
  let l := s.items it
  let value := load c.elem s.mem (c.srcAddr l.offset)
  match l.pc with
  | .loop =>
    if l.i < count c g then some (s.set it { l with pc := .body value })
    else if l.offset.setWidth t.bits < c.num then some (s.set it { l with pc := .rest value })
    else some (s.set it { l with pc := .done })
  | .body value => some ((s.store c it value).set it ⟨.loop, l.i + 1, l.offset + size t g⟩)
  | .rest value => some ((s.store c it value).set it { l with pc := .done })
  | .done => none

/-! ### Numbers of the group -/

/-- The number of work-items. -/
def LocalSize.items (g : LocalSize) : ℕ := g.z.toNat * g.y.toNat * g.x.toNat

theorem LocalSize.items_pos (g : LocalSize) : 0 < g.items :=
  Nat.mul_pos (Nat.mul_pos g.pos.2.2 g.pos.2.1) g.pos.1

/-- The linear id. -/
def Item.linear (it : Item g) : ℕ := (it.z * g.y.toNat + it.y) * g.x.toNat + it.x

theorem Item.linear_lt (it : Item g) : it.linear < g.items := by
  have hrow : it.z * g.y.toNat + it.y < g.z.toNat * g.y.toNat :=
    calc it.z * g.y.toNat + it.y < it.z * g.y.toNat + g.y.toNat := Nat.add_lt_add_left it.y.isLt _
      _ = (it.z + 1) * g.y.toNat := (Nat.succ_mul _ _).symm
      _ ≤ g.z.toNat * g.y.toNat := Nat.mul_le_mul_right _ it.z.isLt
  calc it.linear < (it.z * g.y.toNat + it.y) * g.x.toNat + g.x.toNat :=
        Nat.add_lt_add_left it.x.isLt _
    _ = (it.z * g.y.toNat + it.y + 1) * g.x.toNat := (Nat.succ_mul _ _).symm
    _ ≤ g.items := Nat.mul_le_mul_right _ hrow

theorem digits_inj {n a a' b b' : ℕ} (hb : b < n) (hb' : b' < n) (h : a * n + b = a' * n + b') :
    a = a' ∧ b = b' := by
  have hlow := congrArg (· % n) h
  have hhigh := congrArg (· / n) h
  simp only [Nat.mul_add_mod', Nat.mod_eq_of_lt hb, Nat.mod_eq_of_lt hb'] at hlow
  have hn : 0 < n := Nat.zero_lt_of_lt hb
  simp only [Nat.add_comm (_ * n), Nat.add_mul_div_right _ _ hn, Nat.div_eq_of_lt hb,
    Nat.div_eq_of_lt hb', Nat.zero_add] at hhigh
  exact ⟨hhigh, hlow⟩

theorem Item.linear_inj {it it' : Item g} (h : it.linear = it'.linear) : it = it' := by
  obtain ⟨hrow, hx⟩ := digits_inj it.x.isLt it'.x.isLt h
  obtain ⟨hz, hy⟩ := digits_inj it.y.isLt it'.y.isLt hrow
  cases it
  cases it'
  simp only [Item.mk.injEq]
  exact ⟨Fin.ext hx, Fin.ext hy, Fin.ext hz⟩

/-- Each place in the group is that of a work-item. -/
theorem exists_linear {n : ℕ} (h : n < g.items) : ∃ it : Item g, it.linear = n := by
  have hz : n / g.x.toNat / g.y.toNat < g.z.toNat := by
    rw [Nat.div_lt_iff_lt_mul g.pos.2.1, Nat.div_lt_iff_lt_mul g.pos.1]
    exact h
  refine ⟨⟨⟨n % g.x.toNat, Nat.mod_lt _ g.pos.1⟩,
    ⟨n / g.x.toNat % g.y.toNat, Nat.mod_lt _ g.pos.2.1⟩, ⟨n / g.x.toNat / g.y.toNat, hz⟩⟩, ?_⟩
  show (n / g.x.toNat / g.y.toNat * g.y.toNat + n / g.x.toNat % g.y.toNat) * g.x.toNat +
    n % g.x.toNat = n
  rw [Nat.div_add_mod', Nat.div_add_mod']

theorem Target.le_bits (t : Target) : 32 ≤ t.bits := by
  cases t <;> decide

/-- A value of 32 bits in one of the pointer size. -/
theorem setWidth_setWidth (x : BitVec 32) : x.setWidth t.bits = BitVec.ofNat t.bits x.toNat :=
  (BitVec.ofNat_toNat _ _).symm

theorem size_eq (t : Target) (g : LocalSize) : size t g = BitVec.ofNat 32 g.items := by
  simp only [size, get_local_size, setWidth_setWidth, ← BitVec.ofNat_mul]
  exact BitVec.setWidth_ofNat_of_le t.le_bits _

theorem enter_eq (t : Target) (it : Item g) :
    enter t it = ⟨.loop, 0, BitVec.ofNat 32 it.linear⟩ := by
  have hrow : it.z * g.y.toNat + it.y < 2 ^ 32 := by
    have hlinear := it.linear_lt
    have hle : it.z * g.y.toNat + it.y ≤ it.linear :=
      (Nat.le_mul_of_pos_right _ g.pos.1).trans (Nat.le_add_right _ _)
    have := g.lt
    rw [LocalSize.items] at hlinear
    omega
  simp only [enter, get_local_size, get_local_id, setWidth_setWidth, ← BitVec.ofNat_mul,
    ← BitVec.ofNat_add, BitVec.setWidth_ofNat_of_le t.le_bits, BitVec.toNat_ofNat,
    Nat.mod_eq_of_lt hrow]
  rfl

/-! ### The elements of a work-item -/

theorem count_eq : count c g = BitVec.ofNat 32 (c.num.toNat / g.items) := by
  have hitems : g.items < 2 ^ t.bits :=
    (Nat.lt_trans g.lt (by decide : 2 ^ 31 < 2 ^ 32)).trans_le
      (Nat.pow_le_pow_right (by decide) t.le_bits)
  have hdiv : c.num / BitVec.ofNat t.bits g.items =
      BitVec.ofNat t.bits (c.num.toNat / g.items) := by
    refine BitVec.eq_of_toNat_eq ?_
    rw [BitVec.toNat_udiv, BitVec.toNat_ofNat, BitVec.toNat_ofNat, Nat.mod_eq_of_lt hitems,
      Nat.mod_eq_of_lt ((Nat.div_le_self _ _).trans_lt c.num.isLt)]
  have hmod : g.items % 2 ^ 32 = g.items :=
    Nat.mod_eq_of_lt (Nat.lt_trans g.lt (by decide : 2 ^ 31 < 2 ^ 32))
  rw [count, size_eq, setWidth_setWidth, BitVec.toNat_ofNat, hmod, hdiv,
    BitVec.setWidth_ofNat_of_le t.le_bits]

/-- The store of element `k`. -/
def Call.copy (m : Mem t) (k : ℕ) : Store t :=
  (c.dstAddr (BitVec.ofNat 32 k), load c.elem m (c.srcAddr (BitVec.ofNat 32 k)))

/-- The element of a work-item in turn `j`. -/
def Item.element (it : Item g) (j : ℕ) : ℕ := it.linear + j * g.items

/-- What a work-item has stored in `j` turns. -/
def copies (m : Mem t) (it : Item g) (j : ℕ) : List (Item g × Store t) :=
  (List.range j).map fun i => (it, c.copy m (it.element i))

/-- The turns of a work-item. -/
def turns (it : Item g) : ℕ :=
  c.num.toNat / g.items + if it.element (c.num.toNat / g.items) < c.num.toNat then 1 else 0

theorem lt_turns {it : Item g} {j : ℕ} : j < turns c it ↔ it.element j < c.num.toNat := by
  have hlinear := it.linear_lt
  have hdiv := Nat.div_add_mod' c.num.toNat g.items
  have hmod := Nat.mod_lt c.num.toNat g.items_pos
  rcases Nat.lt_trichotomy j (c.num.toNat / g.items) with h | rfl | h
  · refine iff_of_true (Nat.lt_add_right _ h) ?_
    have := Nat.mul_le_mul_right g.items (Nat.succ_le_of_lt h)
    rw [Nat.succ_mul] at this
    rw [Item.element]
    omega
  · rw [turns]
    split <;> simp_all
  · have hle : turns c it ≤ c.num.toNat / g.items + 1 := by
      rw [turns]
      split <;> omega
    have := Nat.mul_le_mul_right g.items (Nat.succ_le_of_lt h)
    rw [Nat.succ_mul] at this
    refine iff_of_false (by omega) ?_
    rw [Item.element]
    omega

/-- What is known of a work-item that is in turn `j`. -/
def Known (m : Mem t) (s : State t g) (it : Item g) : Prop :=
  ∃ j ≤ c.num.toNat / g.items, (s.items it).i = BitVec.ofNat 32 j ∧
    (s.items it).offset = BitVec.ofNat 32 (it.element j) ∧
    match (s.items it).pc with
    | .loop => s.log.filter (fun e => e.1 = it) = copies c m it j
    | .body value => j < c.num.toNat / g.items ∧
        s.log.filter (fun e => e.1 = it) = copies c m it j ∧ value = (c.copy m (it.element j)).2
    | .rest value => j = c.num.toNat / g.items ∧ it.element j < c.num.toNat ∧
        s.log.filter (fun e => e.1 = it) = copies c m it j ∧ value = (c.copy m (it.element j)).2
    | .done => s.log.filter (fun e => e.1 = it) = copies c m it (turns c it)

/-- An element of an array. -/
def Call.elementAt (array : BitVec t.bits) (index : ℕ) : BitVec t.bits :=
  array + BitVec.ofNat _ (index * c.elem)

theorem addr_eq (array stride : BitVec t.bits) {k : ℕ} (hk : k < 2 ^ 32) :
    array + (BitVec.ofNat 32 k).setWidth _ * stride * BitVec.ofNat _ c.elem =
      c.elementAt array (k * stride.toNat) := by
  rw [setWidth_setWidth, BitVec.toNat_ofNat, Nat.mod_eq_of_lt hk, Call.elementAt, BitVec.ofNat_mul,
    BitVec.ofNat_mul, BitVec.ofNat_toNat, BitVec.setWidth_eq]

/-- The buffers do not overlap. -/
def Apart : Prop := ∀ k < c.num.toNat, ∀ l < c.num.toNat, ∀ b < c.elem, ∀ b' < c.elem,
  c.elementAt c.dst (k * c.builtin.DST_STRIDE.toNat) + BitVec.ofNat _ b ≠
    c.elementAt c.src (l * c.builtin.SRC_STRIDE.toNat) + BitVec.ofNat _ b'

/-- The addresses of the destination do not wrap. -/
def NoWrap : Prop := ∀ k < c.num.toNat,
  c.dst.toNat + (k * c.builtin.DST_STRIDE.toNat + 1) * c.elem ≤ 2 ^ t.bits

/-- The invariant of a run. -/
structure Inv (m : Mem t) (s : State t g) : Prop where
  known : ∀ it, Known c m s it
  mem : s.mem = Writes.write (s.log.flatMap fun e => Store.writes e.2) m

variable {c} {m : Mem t} {s s' : State t g} {it : Item g}

/-- What is in the log is a copy of an element below `num`. -/
theorem Inv.of_mem (h : Inv c m s) {e : Item g × Store t} (he : e ∈ s.log) :
    ∃ j, e.1.element j < c.num.toNat ∧ e.2 = c.copy m (e.1.element j) := by
  have hmem : e ∈ s.log.filter fun e' => e'.1 = e.1 := List.mem_filter.mpr ⟨he, by simp⟩
  have hcopies : ∀ n, (∀ j < n, j < turns c e.1) → e ∈ copies c m e.1 n →
      ∃ j, e.1.element j < c.num.toNat ∧ e.2 = c.copy m (e.1.element j) := by
    intro n hn hen
    obtain ⟨j, hj, hje⟩ := List.mem_map.mp hen
    exact ⟨j, (lt_turns c).mp (hn j (List.mem_range.mp hj)), (congrArg Prod.snd hje).symm⟩
  obtain ⟨j, hj, -, -, hpc⟩ := h.known e.1
  have hle : ∀ i < j, i < turns c e.1 := fun i hi => Nat.lt_add_right _ (hi.trans_le hj)
  split at hpc
  · exact hcopies j hle (hpc ▸ hmem)
  · exact hcopies j hle (hpc.2.1 ▸ hmem)
  · exact hcopies j hle (hpc.2.2.1 ▸ hmem)
  · exact hcopies _ (fun _ hj => hj) (hpc ▸ hmem)

theorem mem_writes {w : Store t} {p : BitVec t.bits × BitVec 8} :
    p ∈ w.writes ↔ ∃ b < w.2.length, p = (w.1 + BitVec.ofNat _ b, w.2.getD b 0) := by
  simp only [Store.writes, List.mem_map, List.mem_range, eq_comm]

theorem copy_length (c : Call t) (m : Mem t) (k : ℕ) : (c.copy m k).2.length = c.elem := by
  rw [Call.copy, load, List.length_map, List.length_range]

/-- The source is as it was. -/
theorem Inv.load_eq (hnum : c.num.toNat < 2 ^ 31) (hapart : Apart c) (h : Inv c m s) {k : ℕ}
    (hk : k < c.num.toNat) :
    load c.elem s.mem (c.srcAddr (BitVec.ofNat 32 k)) = (c.copy m k).2 := by
  refine List.map_congr_left fun b hb => ?_
  rw [h.mem]
  refine Writes.write_of_notMem fun p hp hpx => ?_
  obtain ⟨e, he, hpe⟩ := List.mem_flatMap.mp hp
  obtain ⟨j, hj, hcopy⟩ := h.of_mem he
  obtain ⟨b', hb', rfl⟩ := mem_writes.mp hpe
  rw [hcopy, copy_length] at hb'
  rw [hcopy] at hpx
  have hdst : (c.copy m (e.1.element j)).1 = _ := addr_eq c _ _ (by omega)
  have hsrc : c.srcAddr (BitVec.ofNat 32 k) = _ := addr_eq c _ _ (by omega)
  rw [hdst, hsrc] at hpx
  exact hapart _ hj k hk b' hb' b (List.mem_range.mp hb) hpx

/-! ### Steps -/

@[simp] theorem set_items_self (s : State t g) (it : Item g) (l : Locals) :
    (s.set it l).items it = l := Function.update_self ..

theorem set_items_ne (s : State t g) {it it' : Item g} (h : it' ≠ it) (l : Locals) :
    (s.set it l).items it' = s.items it' := Function.update_of_ne h ..

/-- A step leaves the other work-items alone. -/
theorem next_items_ne {it' : Item g} (h : next c s it' = some s') (hne : it ≠ it') :
    s'.items it = s.items it := by
  simp only [next] at h
  split at h
  · split_ifs at h <;> exact Option.some.inj h ▸ set_items_ne s hne _
  · exact Option.some.inj h ▸ set_items_ne _ hne _
  · exact Option.some.inj h ▸ set_items_ne _ hne _
  · cases h

/-- A step that stores nothing. -/
theorem Inv.set (h : Inv c m s) {l : Locals} (hknown : Known c m (s.set it l) it) :
    Inv c m (s.set it l) := by
  refine ⟨fun it' => ?_, h.mem⟩
  by_cases hit : it' = it
  · exact hit ▸ hknown
  · have hold := h.known it'
    rwa [Known, ← set_items_ne s hit l] at hold

/-- A step that stores. -/
theorem Inv.store (h : Inv c m s) {value : List (BitVec 8)} {l : Locals}
    (hknown : Known c m ((s.store c it value).set it l) it) :
    Inv c m ((s.store c it value).set it l) := by
  refine ⟨fun it' => ?_, ?_⟩
  · by_cases hit : it' = it
    · exact hit ▸ hknown
    · have hold := h.known it'
      have hlog : ((s.store c it value).set it l).log.filter (fun e => e.1 = it') =
          s.log.filter fun e => e.1 = it' := by
        show (s.log ++ [_]).filter _ = _
        rw [List.filter_append, List.filter_cons_of_neg (by simpa using Ne.symm hit),
          List.filter_nil, List.append_nil]
      rw [Known, hlog, set_items_ne _ hit]
      exact hold
  · show Writes.write _ s.mem = Writes.write ((s.log ++ [_]).flatMap _) m
    rw [List.flatMap_append, Writes.write_append, ← h.mem, List.flatMap_singleton]

theorem copies_succ (c : Call t) (m : Mem t) (it : Item g) (j : ℕ) :
    copies c m it (j + 1) = copies c m it j ++ [(it, c.copy m (it.element j))] := by
  rw [copies, List.range_succ, List.map_append]
  rfl

theorem element_lt (hnum : c.num.toNat < 2 ^ 31) (it : Item g) {j : ℕ}
    (hj : j ≤ c.num.toNat / g.items) : it.element j < 2 ^ 32 := by
  have hlinear := it.linear_lt
  have hitems : g.items < 2 ^ 31 := g.lt
  have hmul : j * g.items ≤ c.num.toNat :=
    (Nat.mul_le_mul_right _ hj).trans (Nat.div_mul_le_self _ _)
  rw [Item.element]
  omega

theorem lt_count_iff (hnum : c.num.toNat < 2 ^ 31) {j : ℕ} (hj : j ≤ c.num.toNat / g.items) :
    BitVec.ofNat 32 j < count c g ↔ j < c.num.toNat / g.items := by
  have hdiv : c.num.toNat / g.items ≤ c.num.toNat := Nat.div_le_self _ _
  rw [count_eq, BitVec.lt_def, BitVec.toNat_ofNat, BitVec.toNat_ofNat, Nat.mod_eq_of_lt (by omega),
    Nat.mod_eq_of_lt (by omega)]

theorem offset_lt_iff (hnum : c.num.toNat < 2 ^ 31) (it : Item g) {j : ℕ}
    (hj : j ≤ c.num.toNat / g.items) :
    (BitVec.ofNat 32 (it.element j)).setWidth t.bits < c.num ↔ it.element j < c.num.toNat := by
  have helement := element_lt hnum it hj
  rw [setWidth_setWidth, BitVec.lt_def, BitVec.toNat_ofNat, BitVec.toNat_ofNat,
    Nat.mod_eq_of_lt helement,
    Nat.mod_eq_of_lt (helement.trans_le (Nat.pow_le_pow_right (by decide) t.le_bits))]

/-- The log of a work-item that stores an element. -/
theorem filter_store {j : ℕ} (hoffset : (s.items it).offset = BitVec.ofNat 32 (it.element j))
    (hlog : s.log.filter (fun e => e.1 = it) = copies c m it j) (l : Locals) :
    ((s.store c it (c.copy m (it.element j)).2).set it l).log.filter (fun e => e.1 = it) =
      copies c m it (j + 1) := by
  show (s.log ++ [(it, (c.dstAddr (s.items it).offset, _))]).filter _ = _
  rw [List.filter_append, List.filter_cons_of_pos (by simp), hlog, hoffset, copies_succ]
  rfl

theorem next_keeps (hnum : c.num.toNat < 2 ^ 31) (hapart : Apart c) (h : next c s it = some s')
    (hI : Inv c m s) : Inv c m s' := by
  obtain ⟨j, hj, hi, hoffset, hpc⟩ := hI.known it
  cases hpcs : (s.items it).pc with
  | loop =>
    simp only [hpcs] at hpc
    simp only [next, hpcs, hi, hoffset] at h
    split_ifs at h with htest hrest
    · have hlt := (lt_count_iff hnum hj).mp htest
      obtain rfl := Option.some.inj h
      refine hI.set ⟨j, hj, ?_⟩
      rw [set_items_self]
      exact ⟨rfl, rfl, hlt, hpc, hI.load_eq hnum hapart ((lt_turns c).mp (Nat.lt_add_right _ hlt))⟩
    · have hlast : j = c.num.toNat / g.items :=
        le_antisymm hj (not_lt.mp fun hlt => htest ((lt_count_iff hnum hj).mpr hlt))
      have hlt := (offset_lt_iff hnum it hj).mp hrest
      obtain rfl := Option.some.inj h
      refine hI.set ⟨j, hj, ?_⟩
      rw [set_items_self]
      exact ⟨rfl, rfl, hlast, hlt, hpc, hI.load_eq hnum hapart hlt⟩
    · have hlast : j = c.num.toNat / g.items :=
        le_antisymm hj (not_lt.mp fun hlt => htest ((lt_count_iff hnum hj).mpr hlt))
      have hge : ¬ it.element j < c.num.toNat := mt (offset_lt_iff hnum it hj).mpr hrest
      obtain rfl := Option.some.inj h
      refine hI.set ⟨j, hj, ?_⟩
      rw [set_items_self]
      -- nothing is left for this work-item
      have hturns : turns c it = j := by rw [turns, ← hlast, if_neg hge, Nat.add_zero]
      exact ⟨rfl, rfl, hturns ▸ hpc⟩
  | body value =>
    simp only [hpcs] at hpc
    obtain ⟨hlt, hlog, rfl⟩ := hpc
    simp only [next, hpcs, Option.some.injEq] at h
    subst h
    refine hI.store ⟨j + 1, hlt, ?_⟩
    rw [set_items_self]
    refine ⟨?_, ?_, filter_store hoffset hlog _⟩
    · show (s.items it).i + 1 = _
      rw [hi, BitVec.ofNat_add]
      rfl
    · show (s.items it).offset + size t g = _
      rw [hoffset, size_eq, ← BitVec.ofNat_add, Item.element, Item.element, Nat.succ_mul,
        Nat.add_assoc]
  | rest value =>
    simp only [hpcs] at hpc
    obtain ⟨hlast, hlt, hlog, rfl⟩ := hpc
    simp only [next, hpcs, Option.some.injEq] at h
    subst h
    refine hI.store ⟨j, hj, ?_⟩
    rw [set_items_self]
    have hturns : turns c it = j + 1 := by rw [turns, ← hlast, if_pos hlt]
    exact ⟨hi, hoffset, hturns ▸ filter_store hoffset hlog _⟩
  | done =>
    simp only [next, hpcs] at h
    cases h

theorem inv_start (c : Call t) (m : Mem t) : Inv c m (start t g m) := by
  refine ⟨fun it => ⟨0, Nat.zero_le _, ?_⟩, rfl⟩
  have henter : (start t g m).items it = ⟨.loop, 0, BitVec.ofNat 32 it.linear⟩ := enter_eq t it
  rw [henter, Item.element, Nat.zero_mul]
  exact ⟨rfl, rfl, rfl⟩

/-! ### Whole runs -/

/-- What is left to do. -/
def left (c : Call t) (s : State t g) (it : Item g) : ℕ :=
  match (s.items it).pc with
  | .loop => 2 * (c.num.toNat / g.items - (s.items it).i.toNat) + 2
  | .body _ => 2 * (c.num.toNat / g.items - (s.items it).i.toNat) + 1
  | .rest _ => 1
  | .done => 0

theorem left_next (hnum : c.num.toNat < 2 ^ 31) {it' : Item g} (h : next c s it' = some s')
    (hI : Inv c m s) : left c s' it + (if it' = it then 1 else 0) ≤ left c s it := by
  by_cases hit : it' = it
  · subst hit
    obtain ⟨j, hj, hi, -, hpc⟩ := hI.known it'
    have hdiv : c.num.toNat / g.items ≤ c.num.toNat := Nat.div_le_self _ _
    have hij : (s.items it').i.toNat = j := by
      rw [hi, BitVec.toNat_ofNat, Nat.mod_eq_of_lt (by omega)]
    rw [if_pos rfl]
    cases hpcs : (s.items it').pc with
    | loop =>
      simp only [next, hpcs] at h
      split_ifs at h <;> obtain rfl := Option.some.inj h <;> simp only [left, hpcs, set_items_self]
      all_goals omega
    | body value =>
      simp only [hpcs] at hpc
      have hnext : ((s.items it').i + 1).toNat = j + 1 := by
        have hone : (1 : BitVec 32).toNat = 1 := rfl
        rw [BitVec.toNat_add, hij, hone, Nat.mod_eq_of_lt (by omega)]
      simp only [next, hpcs, Option.some.injEq] at h
      subst h
      simp only [left, hpcs, set_items_self, hnext, hij]
      omega
    | rest value =>
      simp only [next, hpcs, Option.some.injEq] at h
      subst h
      simp [left, hpcs, set_items_self]
    | done =>
      simp only [next, hpcs] at h
      cases h
  · rw [left, left, next_items_ne h (Ne.symm hit), if_neg hit, Nat.add_zero]

/-- Element `k * dst_stride` is stored once for each `k < num`, with element `k * src_stride`, and
nothing else is. -/
structure Copied (c : Call t) (m : Mem t) (s : State t g) : Prop where
  stores : (s.log.map fun e => e.2).Perm ((List.range c.num.toNat).map fun k =>
    (c.elementAt c.dst (k * c.builtin.DST_STRIDE.toNat),
      load c.elem m (c.elementAt c.src (k * c.builtin.SRC_STRIDE.toNat))))
  once : (s.log.map fun e => e.2.1).Nodup
  content : ∀ k < c.num.toNat,
    load c.elem s.mem (c.elementAt c.dst (k * c.builtin.DST_STRIDE.toNat)) =
      load c.elem m (c.elementAt c.src (k * c.builtin.SRC_STRIDE.toNat))
  frame : ∀ x, (∀ k < c.num.toNat, ∀ b < c.elem,
    x ≠ c.elementAt c.dst (k * c.builtin.DST_STRIDE.toNat) + BitVec.ofNat _ b) → s.mem x = m x

theorem copy_eq (hnum : c.num.toNat < 2 ^ 31) {k : ℕ} (hk : k < c.num.toNat) :
    c.copy m k = (c.elementAt c.dst (k * c.builtin.DST_STRIDE.toNat),
      load c.elem m (c.elementAt c.src (k * c.builtin.SRC_STRIDE.toNat))) := by
  have hsrc : c.srcAddr (BitVec.ofNat 32 k) = _ := addr_eq c _ _ (by omega)
  rw [Call.copy, hsrc]
  exact congrArg (·, _) (addr_eq c _ _ (by omega))

/-- Bytes of the destination have different addresses. -/
theorem dst_inj (hstride : 0 < c.builtin.DST_STRIDE.toNat) (hwrap : NoWrap c) {k l b b' : ℕ}
    (hk : k < c.num.toNat) (hl : l < c.num.toNat) (hb : b < c.elem) (hb' : b' < c.elem)
    (h : c.elementAt c.dst (k * c.builtin.DST_STRIDE.toNat) + BitVec.ofNat _ b =
      c.elementAt c.dst (l * c.builtin.DST_STRIDE.toNat) + BitVec.ofNat _ b') : k = l ∧ b = b' := by
  have hplace : ∀ {k b : ℕ}, k < c.num.toNat → b < c.elem →
      (c.elementAt c.dst (k * c.builtin.DST_STRIDE.toNat) + BitVec.ofNat _ b).toNat =
        c.dst.toNat + (k * c.builtin.DST_STRIDE.toNat * c.elem + b) := by
    intro k b hk hb
    have hlt := hwrap k hk
    rw [Nat.succ_mul] at hlt
    rw [Call.elementAt, BitVec.add_assoc, ← BitVec.ofNat_add, BitVec.toNat_add, BitVec.toNat_ofNat,
      Nat.add_mod_mod, Nat.mod_eq_of_lt (by omega)]
  have hnat := congrArg BitVec.toNat h
  rw [hplace hk hb, hplace hl hb', Nat.add_left_cancel_iff] at hnat
  obtain ⟨hindex, rfl⟩ := digits_inj hb hb' hnat
  exact ⟨Nat.eq_of_mul_eq_mul_right hstride hindex, rfl⟩

/-- The log of a work-item that has returned. -/
theorem Inv.filter_done (h : Inv c m s) (hdone : (s.items it).pc = .done) :
    s.log.filter (fun e => e.1 = it) = copies c m it (turns c it) := by
  obtain ⟨j, -, -, -, hpc⟩ := h.known it
  rwa [hdone] at hpc

section

variable (hnum : c.num.toNat < 2 ^ 31) (hstride : 0 < c.builtin.DST_STRIDE.toNat) (hwrap : NoWrap c)

include hnum hstride hwrap

theorem copy_inj {k l : ℕ} (hk : k < c.num.toNat) (hl : l < c.num.toNat)
    (h : (c.copy m k).1 = (c.copy m l).1) : k = l := by
  rw [copy_eq hnum hk, copy_eq hnum hl] at h
  exact (dst_inj hstride hwrap hk hl c.elem_pos c.elem_pos (congrArg (· + _) h)).1

/-- No work-item stores an element of another, nor one twice. -/
theorem Inv.once (h : Inv c m s) (hdone : ∀ it, (s.items it).pc = .done) :
    (s.log.map fun e => e.2.1).Nodup := by
  have hlog : s.log.Nodup := by
    refine List.nodup_iff_count_le_one.mpr fun e => ?_
    have hcount : s.log.count e = (s.log.filter fun e' => e'.1 = e.1).count e :=
      (List.count_filter (by simp)).symm
    rw [hcount, h.filter_done (hdone e.1)]
    refine List.nodup_iff_count_le_one.mp (List.Nodup.map_on ?_ List.nodup_range) e
    intro i hi j hj hij
    have hcopy := copy_inj hnum hstride hwrap ((lt_turns c).mp (List.mem_range.mp hi))
      ((lt_turns c).mp (List.mem_range.mp hj)) (congrArg (fun e => e.2.1) hij)
    exact Nat.eq_of_mul_eq_mul_right g.items_pos (Nat.add_left_cancel hcopy)
  refine List.Nodup.map_on ?_ hlog
  intro e he e' he' heq
  obtain ⟨i, hi, hw⟩ := h.of_mem he
  obtain ⟨j, hj, hw'⟩ := h.of_mem he'
  rw [hw, hw'] at heq
  have hcopy := copy_inj hnum hstride hwrap hi hj heq
  have hit : e.1 = e'.1 := by
    have hmod := congrArg (· % g.items) hcopy
    simp only [Item.element, Nat.add_mul_mod_self_right, Nat.mod_eq_of_lt (Item.linear_lt _)]
      at hmod
    exact Item.linear_inj hmod
  exact Prod.ext hit (by rw [hw, hw', hcopy])

theorem Inv.stores (h : Inv c m s) (hdone : ∀ it, (s.items it).pc = .done) :
    (s.log.map fun e => e.2).Perm ((List.range c.num.toNat).map (c.copy m)) := by
  have honce := h.once hnum hstride hwrap hdone
  have hleft : (s.log.map fun e => e.2).Nodup := by
    refine List.Nodup.of_map Prod.fst ?_
    rwa [List.map_map]
  have hright : ((List.range c.num.toNat).map (c.copy m)).Nodup :=
    List.Nodup.map_on (fun k hk l hl hkl => copy_inj hnum hstride hwrap (List.mem_range.mp hk)
      (List.mem_range.mp hl) (congrArg Prod.fst hkl)) List.nodup_range
  refine (List.perm_ext_iff_of_nodup hleft hright).mpr fun w => ?_
  constructor
  · intro hw
    obtain ⟨e, he, rfl⟩ := List.mem_map.mp hw
    obtain ⟨j, hj, hcopy⟩ := h.of_mem he
    exact List.mem_map.mpr ⟨_, List.mem_range.mpr hj, hcopy.symm⟩
  · intro hw
    obtain ⟨k, hk, rfl⟩ := List.mem_map.mp hw
    -- the element belongs to the work-item at its remainder
    obtain ⟨it, hit⟩ := exists_linear (g := g) (Nat.mod_lt k g.items_pos)
    have helement : it.element (k / g.items) = k := by
      rw [Item.element, hit, Nat.add_comm, Nat.div_add_mod']
    have hturn : k / g.items < turns c it :=
      (lt_turns c).mpr (helement.symm ▸ List.mem_range.mp hk)
    have hmem : (it, c.copy m k) ∈ s.log.filter fun e => e.1 = it := by
      rw [h.filter_done (hdone it)]
      exact List.mem_map.mpr ⟨_, List.mem_range.mpr hturn, by rw [helement]⟩
    exact List.mem_map.mpr ⟨_, (List.mem_filter.mp hmem).1, rfl⟩

theorem Inv.copied (h : Inv c m s) (hdone : ∀ it, (s.items it).pc = .done) : Copied c m s := by
  have hstores := h.stores hnum hstride hwrap hdone
  have hmap : (List.range c.num.toNat).map (c.copy m) = (List.range c.num.toNat).map fun k =>
      (c.elementAt c.dst (k * c.builtin.DST_STRIDE.toNat),
        load c.elem m (c.elementAt c.src (k * c.builtin.SRC_STRIDE.toNat))) :=
    List.map_congr_left fun k hk => copy_eq hnum (List.mem_range.mp hk)
  rw [hmap] at hstores
  have hwrites : ∀ {p}, p ∈ (s.log.flatMap fun e => Store.writes e.2) ↔ ∃ k < c.num.toNat,
      ∃ b < c.elem, p = (c.elementAt c.dst (k * c.builtin.DST_STRIDE.toNat) + BitVec.ofNat _ b,
        m (c.elementAt c.src (k * c.builtin.SRC_STRIDE.toNat) + BitVec.ofNat _ b)) := by
    intro p
    have hbyte : ∀ {k b : ℕ}, b < c.elem →
        (load c.elem m (c.elementAt c.src (k * c.builtin.SRC_STRIDE.toNat))).getD b 0 =
          m (c.elementAt c.src (k * c.builtin.SRC_STRIDE.toNat) + BitVec.ofNat _ b) := by
      intro k b hb
      simp [load, hb]
    rw [← List.flatMap_map (fun e : Item g × Store t => e.2), List.mem_flatMap]
    constructor
    · rintro ⟨w, hw, hp⟩
      obtain ⟨k, hk, rfl⟩ := List.mem_map.mp (hstores.mem_iff.mp hw)
      obtain ⟨b, hb, rfl⟩ := mem_writes.mp hp
      have hb : b < c.elem := by simpa [load] using hb
      exact ⟨k, List.mem_range.mp hk, b, hb, by rw [hbyte hb]⟩
    · rintro ⟨k, hk, b, hb, rfl⟩
      refine ⟨_, hstores.mem_iff.mpr (List.mem_map.mpr ⟨k, List.mem_range.mpr hk, rfl⟩), ?_⟩
      exact mem_writes.mpr ⟨b, by simpa [load] using hb, by rw [hbyte hb]⟩
  refine ⟨hstores, h.once hnum hstride hwrap hdone, fun k hk => ?_, fun x hx => ?_⟩
  · refine List.map_congr_left fun b hb => ?_
    have hb := List.mem_range.mp hb
    rw [h.mem]
    refine Writes.write_of_mem ⟨_, hwrites.mpr ⟨k, hk, b, hb, rfl⟩, rfl⟩ fun p hp hpx => ?_
    obtain ⟨l, hl, b', hb', rfl⟩ := hwrites.mp hp
    obtain ⟨rfl, rfl⟩ := dst_inj hstride hwrap hl hk hb' hb hpx
    rfl
  · rw [h.mem]
    refine Writes.write_of_notMem fun p hp hpx => ?_
    obtain ⟨k, hk, b, hb, rfl⟩ := hwrites.mp hp
    exact hx k hk b hb hpx.symm

end

/-- Each work-item returns, whatever the others do. -/
theorem count_le (hnum : c.num.toNat < 2 ^ 31) (hapart : Apart c) {as : List (Item g)}
    (h : Transition.exec (next c) (start t g m) as = some s) (it : Item g) :
    as.count it ≤ 2 * (c.num.toNat / g.items) + 2 := by
  have hcount := Transition.exec_count_le (I := Inv c m) (fun s => left c s it) it
    (next_keeps hnum hapart) (left_next hnum) h (inv_start c m)
  have hstart : left c (start t g m) it = 2 * (c.num.toNat / g.items) + 2 := by
    have henter : (start t g m).items it = ⟨.loop, 0, BitVec.ofNat 32 it.linear⟩ := enter_eq t it
    simp [left, henter]
  omega

/-- Whatever the order of the steps. -/
theorem work_group_copied (hnum : c.num.toNat < 2 ^ 31) (hstride : 0 < c.builtin.DST_STRIDE.toNat)
    (hwrap : NoWrap c) (hapart : Apart c) {as : List (Item g)}
    (h : Transition.exec (next c) (start t g m) as = some s) :
    (∀ it, as.count it ≤ 2 * (c.num.toNat / g.items) + 2) ∧
      ((∀ it, next c s it = none) → Copied c m s) := by
  have hI := Transition.exec_invariant (next_keeps hnum hapart) h (inv_start c m)
  refine ⟨count_le hnum hapart h, fun hnone => hI.copied hnum hstride hwrap fun it => ?_⟩
  have hit := hnone it
  cases hpcs : (s.items it).pc with
  | done => rfl
  | _ =>
    simp only [next, hpcs] at hit
    try split_ifs at hit
    try cases hit

/-- Two work-items. -/
def pair : LocalSize := ⟨2, 1, 1, by decide, by decide⟩

def pairItem (x : Fin 2) : Item pair := ⟨x, ⟨0, by decide⟩, ⟨0, by decide⟩⟩

def stridedCall : Call .spir64 := ⟨.async_work_group_strided_copy_local 2, 0, 16, 3, 4, by decide⟩

/-- For the literals of `Fin 2`. -/
local instance neZero_two : NeZero 2 := ⟨by decide⟩

/-- A run of the two work-items. -/
def pairRun : Option (State .spir64 pair) := Transition.exec (next stridedCall)
  (start _ _ fun a => a.setWidth 8) ([1, 0, 0, 1, 0, 1, 0].map pairItem)

theorem work_group_copied_pair :
    Copied stridedCall (fun a => a.setWidth 8) (pairRun.get (by decide +kernel)) := by
  have hapart : Apart stridedCall := by
    rw [Apart]
    decide
  have hwrap : NoWrap stridedCall := by
    rw [NoWrap]
    decide
  have hdone : ∀ x y z, next stridedCall (pairRun.get (by decide +kernel)) ⟨x, y, z⟩ = none := by
    decide +kernel
  have hrun : pairRun = some (pairRun.get (by decide +kernel)) := (Option.some_get _).symm
  exact (work_group_copied (by decide) (by decide) hwrap hapart hrun).2 fun it => hdone _ _ _

end AsyncCopy

end Runtime
