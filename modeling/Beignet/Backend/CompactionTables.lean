/-
The search of the compaction tables.

A table that is sorted by its patterns is searched completely (`bsearch_complete`).  Four of
the tables are sorted.  The types of the eighth generation are in the order of their
indices, and so are the control bits of three sources, whose first pattern is the largest:
there the search misses some of the patterns.

* `bsearch_complete` — what a sorted table has is found;
* `lookup_complete_iff` — which patterns are found, of each table;
* `request_found_iff` — which instructions have their patterns found.
-/
import Beignet.Backend.CompactionRoundTrip

namespace Compact

open BitFields

/-! ### Sorted tables -/

/-- The patterns increase, and their differences are positive as signed numbers. -/
def Sorted (table : List Entry) : Prop :=
  table.Pairwise (fun e e' => e.bit_pattern.toNat < e'.bit_pattern.toNat) ∧
    ∀ e ∈ table, e.bit_pattern.toNat < 2 ^ 31

instance (table : List Entry) : Decidable (Sorted table) :=
  inferInstanceAs (Decidable (_ ∧ _))

/-- The comparison of the search. -/
theorem toInt_sub_of_lt {x y : BitVec 32} (hx : x.toNat < 2 ^ 31) (hy : y.toNat < 2 ^ 31) :
    (x - y).toInt = x.toNat - y.toNat := by
  have hx' : x.toInt = x.toNat := BitVec.toInt_eq_toNat_of_lt (by omega)
  have hy' : y.toInt = y.toNat := BitVec.toInt_eq_toNat_of_lt (by omega)
  rw [BitVec.toInt_sub, hx', hy']
  apply Int.bmod_eq_of_le <;> omega

/-- The window keeps the place of the pattern, and shrinks with the fuel. -/
theorem bsearch_complete {table : List Entry} (hsorted : Sorted table) {k : ℕ} {e : Entry}
    (hk : table[k]? = some e) {fuel l u : ℕ} (hl : l ≤ k) (hu : k < u) (hlen : u ≤ table.length)
    (hfuel : u - l ≤ fuel) : bsearch e.bit_pattern table fuel l u = some e := by
  obtain ⟨hpair, hbound⟩ := hsorted
  rw [List.pairwise_iff_getElem] at hpair
  obtain ⟨hklt, rfl⟩ := List.getElem?_eq_some_iff.mp hk
  induction fuel generalizing l u with
  | zero => omega
  | succ fuel ih =>
    have hmid : (l + u) / 2 < table.length := by omega
    rw [bsearch, if_pos (by omega), List.getElem?_eq_getElem hmid]
    dsimp only
    rw [toInt_sub_of_lt (hbound _ (List.getElem_mem hklt)) (hbound _ (List.getElem_mem hmid))]
    rcases Nat.lt_trichotomy k ((l + u) / 2) with hlt | heq | hgt
    · have := hpair k _ hklt hmid hlt
      rw [if_pos (by omega)]
      exact ih hl hlt (by omega) (by omega)
    · subst heq
      rw [if_neg (by omega), if_neg (by omega)]
    · have := hpair _ k hmid hklt hgt
      rw [if_neg (by omega), if_pos (by omega)]
      exact ih hgt hu hlen (by omega)

theorem lookup_of_sorted {table : List Entry} (hsorted : Sorted table) {e : Entry}
    (he : e ∈ table) : lookup e.bit_pattern table = some e.index := by
  obtain ⟨k, hk, rfl⟩ := List.getElem_of_mem he
  rw [lookup, bsearch_complete hsorted (List.getElem?_eq_getElem hk) (Nat.zero_le k) hk
    (Nat.le_refl _) (by omega), Option.map_some]

/-! ### The tables -/

inductive Table
  | control | dataType | gen8DataType | subReg | srcReg | src3Control
  deriving DecidableEq

namespace Table

/-- The table that is searched. -/
def entries : Table → List Entry
  | control => control_table
  | dataType => data_type_table
  | gen8DataType => gen8_data_type_table
  | subReg => subreg_table
  | srcReg => srcreg_table
  | src3Control => src3_control_table

/-- The table that decompaction reads. -/
def inverse : Table → List Entry
  | control => control_table
  | dataType => data_type_decompact
  | gen8DataType => gen8_data_type_table
  | subReg => subreg_table
  | srcReg => srcreg_table
  | src3Control => src3_control_table

/-- How many bits of the index a compact instruction has. -/
def indexBits : Table → ℕ
  | src3Control => 2
  | _ => 5

/-- The lookup finds the key, and decompaction maps the index back to it. -/
def Finds (t : Table) (key : BitVec 32) : Prop :=
  ∃ i, lookup key t.entries = some i ∧ patternAt t.inverse (truncate t.indexBits i) = key

/-- The indices of the patterns that the search misses. -/
def missed : Table → List (BitVec 32)
  | gen8DataType => [17, 18, 19, 20, 21, 22, 23, 24, 25, 26, 27, 29, 30, 31]
  | src3Control => [0]
  | _ => []

end Table

theorem entries_sorted_iff (t : Table) :
    Sorted t.entries ↔ t ≠ .gen8DataType ∧ t ≠ .src3Control := by
  cases t <;> decide +kernel

theorem entries_inverts (t : Table) :
    Inverts t.entries t.inverse (truncate t.indexBits) := by
  cases t with
  | control => exact tables_invert.control
  | dataType => exact tables_invert.dataType
  | gen8DataType => exact tables_invert.gen8DataType
  | subReg => exact tables_invert.subReg
  | srcReg => exact tables_invert.srcReg
  | src3Control => exact tables_invert.src3Control

/-- In the unsorted tables the search was tried on each pattern. -/
theorem lookup_unsorted : ∀ t : Table, ¬ Sorted t.entries → ∀ e ∈ t.entries,
    lookup e.bit_pattern t.entries = if e.index ∈ t.missed then none else some e.index := by
  intro t ht
  have hcases : t = .gen8DataType ∨ t = .src3Control := by
    by_contra hne
    rw [not_or] at hne
    exact ht ((entries_sorted_iff t).mpr hne)
  rcases hcases with rfl | rfl <;> decide +kernel

theorem lookup_entry (t : Table) {e : Entry} (he : e ∈ t.entries) :
    lookup e.bit_pattern t.entries = if e.index ∈ t.missed then none else some e.index := by
  by_cases hsorted : Sorted t.entries
  · have hmissed : t.missed = [] := by
      obtain ⟨h8, h3⟩ := (entries_sorted_iff t).mp hsorted
      cases t <;> first | rfl | exact absurd rfl h8 | exact absurd rfl h3
    rw [lookup_of_sorted hsorted he, hmissed, if_neg List.not_mem_nil]
  · exact lookup_unsorted t hsorted e he

/-- A pattern of a table is found, with the index that leads back to it, exactly when its
index is none of those that are missed. -/
theorem lookup_complete_iff (t : Table) {e : Entry} (he : e ∈ t.entries) :
    t.Finds e.bit_pattern ↔ e.index ∉ t.missed := by
  constructor
  · rintro ⟨i, hi, -⟩ hmissed
    rw [lookup_entry t he, if_pos hmissed] at hi
    cases hi
  · intro hfound
    have hlookup := lookup_entry t he
    rw [if_neg hfound] at hlookup
    exact ⟨e.index, hlookup, (entries_inverts t).patternAt_eq hlookup⟩

/-! ### The lookups of the encoder -/

/-- What is looked up for an instruction. -/
inductive Request
  | control (s : GenInstructionState)
  | dataType (v : Version) (dst src0 : GenRegister) (src1 : Option GenRegister)
  | subReg (dst src0 : GenRegister) (src1 : Option GenRegister)
  | srcReg (s : GenInstructionState) (src : GenRegister)
  | src3Control (s : GenInstructionState)

namespace Request

def table : Request → Table
  | control _ => .control
  | dataType .gen7 _ _ _ => .dataType
  | dataType .gen8 _ _ _ => .gen8DataType
  | subReg _ _ _ => .subReg
  | srcReg _ _ => .srcReg
  | src3Control _ => .src3Control

/-- The pattern of the instruction; the encoder stops at other execution widths. -/
def key : Request → Option (BitVec 32)
  | control s => (executionSize s.execWidth).map (controlBits s (u32 s.quarterControl))
  | dataType .gen7 dst src0 src1 => some (dataTypeBits dst src0 src1)
  | dataType .gen8 dst src0 src1 => some (gen8DataTypeBits dst src0 src1)
  | subReg dst src0 src1 => some (subRegBits dst src0 src1)
  | srcReg s src => some (srcRegBits s src)
  | src3Control s => (executionSize s.execWidth).map (src3ControlBits s (u32 s.quarterControl))

/-- The instruction has nothing that a pattern of the table cannot say, and that is refused
before the search: nibble control, a constant where only registers are compact, a predicate
or a flag of three sources. -/
def Searched : Request → Prop
  | control s => s.nibControl = 0
  | dataType _ _ src0 _ => src0.file ≠ GEN_IMMEDIATE_VALUE
  | subReg _ _ _ => True
  | srcReg _ src => src.file ≠ GEN_IMMEDIATE_VALUE
  | src3Control s => s.nibControl = 0 ∧ s.predicate = 0 ∧ s.inversePredicate = 0 ∧ s.flag = 0 ∧
      s.subFlag = 0

/-- The function of the encoder. -/
def result : Request → Option (BitVec 32)
  | control s => compactControlBits s (u32 s.quarterControl) s.execWidth
  | dataType v dst src0 src1 => compactDataTypeBits v dst src0 src1
  | subReg dst src0 src1 => compactSubRegBits dst src0 src1
  | srcReg s src => compactSrcRegBits s src
  | src3Control s => compactControlBitsSrc3 s (u32 s.quarterControl) s.execWidth

end Request

/-- What the patterns of control bits have in common. -/
theorem control_table_fields : ∀ e ∈ control_table,
    get ControlBits.predicate_control e.bit_pattern < 2 ∧
      get ControlBits.flag_reg_nr e.bit_pattern = 0 := by
  decide +kernel

theorem data_type_table_fields : ∀ e ∈ data_type_table,
    get DataTypeBits.dest_address_mode e.bit_pattern = 0 := by
  decide +kernel

theorem gen8_data_type_table_fields : ∀ e ∈ gen8_data_type_table,
    get Gen8DataTypeBits.dest_address_mode e.bit_pattern = 0 := by
  decide +kernel

theorem srcreg_table_fields : ∀ e ∈ srcreg_table,
    get SrcRegBits.src_address_mode e.bit_pattern = 0 := by
  decide +kernel

theorem src3_control_table_fields : ∀ e ∈ src3_control_table,
    get Src3ControlBits.execution_size e.bit_pattern ≠ 2 ∧
      get Src3ControlBits.execution_size e.bit_pattern ≠ 0 := by
  decide +kernel

theorem address_mode_eq_zero {x : BitVec 1} (h : truncate 1 (u32 x) = 0) : x = 0 := by
  revert x
  decide

theorem result_control {s : GenInstructionState} {e : Entry} (he : e ∈ control_table)
    (hkey : (Request.control s).key = some e.bit_pattern)
    (hsearched : (Request.control s).Searched) :
    (Request.control s).result = lookup e.bit_pattern control_table := by
  have hnib : s.nibControl = 0 := hsearched
  obtain ⟨size, hsize, hpattern⟩ := Option.map_eq_some_iff.mp hkey
  have hctl := controlBits_holds s size
  rw [hpattern] at hctl
  simp only [holds_cons] at hctl
  obtain ⟨-, -, -, -, -, hpred, -, -, -, -, hflag, -⟩ := hctl
  obtain ⟨hpredicate, hregister⟩ := control_table_fields e he
  rw [hpred] at hpredicate
  rw [hflag] at hregister
  have hle : ∀ x : BitVec 4, truncate 4 (u32 x) < 2 → ¬ 1 < x := by decide
  have hne : s.flag ≠ 1 := by
    rw [address_mode_eq_zero hregister]
    decide
  rw [Request.result, compactControlBits, if_neg (not_not.mpr hnib),
    if_neg (hle _ hpredicate), if_neg hne, hsize, Option.bind_some, hpattern]

theorem result_dataType {v : Version} {dst src0 : GenRegister} {src1 : Option GenRegister}
    {e : Entry} (he : e ∈ (Request.dataType v dst src0 src1).table.entries)
    (hkey : (Request.dataType v dst src0 src1).key = some e.bit_pattern)
    (hsearched : (Request.dataType v dst src0 src1).Searched) :
    (Request.dataType v dst src0 src1).result =
      lookup e.bit_pattern (Request.dataType v dst src0 src1).table.entries := by
  have hfile : src0.file ≠ GEN_IMMEDIATE_VALUE := hsearched
  cases v with
  | gen7 =>
    have hpattern : dataTypeBits dst src0 src1 = e.bit_pattern := Option.some_inj.mp hkey
    have hdt := dataTypeBits_holds dst src0 src1
    rw [hpattern] at hdt
    simp only [holds_cons] at hdt
    obtain ⟨-, -, -, -, -, -, -, hmode, -⟩ := hdt
    have hzero := data_type_table_fields e he
    rw [hmode] at hzero
    simp only [Request.result, compactDataTypeBits, address_mode_eq_zero hzero, hpattern,
      if_neg hfile]
    rfl
  | gen8 =>
    have hpattern : gen8DataTypeBits dst src0 src1 = e.bit_pattern := Option.some_inj.mp hkey
    have hdt := gen8DataTypeBits_holds dst src0 src1
    rw [hpattern] at hdt
    simp only [holds_cons] at hdt
    obtain ⟨-, -, -, -, -, -, -, hmode, -⟩ := hdt
    have hzero := gen8_data_type_table_fields e he
    rw [hmode] at hzero
    simp only [Request.result, compactDataTypeBits, address_mode_eq_zero hzero, hpattern,
      if_neg hfile]
    rfl

theorem result_srcReg {s : GenInstructionState} {src : GenRegister} {e : Entry}
    (he : e ∈ srcreg_table) (hkey : (Request.srcReg s src).key = some e.bit_pattern)
    (hsearched : (Request.srcReg s src).Searched) :
    (Request.srcReg s src).result = lookup e.bit_pattern srcreg_table := by
  have hpattern : srcRegBits s src = e.bit_pattern := Option.some_inj.mp hkey
  have hmode : get SrcRegBits.src_address_mode (srcRegBits s src) =
      truncate 1 (u32 src.address_mode) := by
    rw [srcRegBits]
    split <;>
    · simp (disch := decide) only [get_set_self, get_set_of_disjoint]
      rfl
  rw [hpattern, srcreg_table_fields e he] at hmode
  have hzero := address_mode_eq_zero hmode.symm
  rw [Request.result, compactSrcRegBits, if_neg hsearched, if_neg (not_not.mpr hzero), hpattern]

theorem src3ControlBits_size (s : GenInstructionState) (size : BitVec 32) :
    get Src3ControlBits.execution_size (src3ControlBits s (u32 s.quarterControl) size) =
      truncate 3 size := by
  simp (disch := decide) only [src3ControlBits, get_set_self, get_set_of_disjoint]
  rfl

theorem result_src3Control {s : GenInstructionState} {e : Entry} (he : e ∈ src3_control_table)
    (hkey : (Request.src3Control s).key = some e.bit_pattern)
    (hsearched : (Request.src3Control s).Searched) :
    (Request.src3Control s).result = lookup e.bit_pattern src3_control_table := by
  obtain ⟨hnib, hpred, hinv, hflag, hsub⟩ := hsearched
  obtain ⟨size, hsize, hpattern⟩ := Option.map_eq_some_iff.mp hkey
  have hctl := src3ControlBits_size s size
  rw [hpattern] at hctl
  obtain ⟨h2, h0⟩ := src3_control_table_fields e he
  rw [hctl] at h2 h0
  have hwidth : ¬ (s.execWidth = 4 ∨ s.execWidth = 1) := by
    rintro (h | h) <;> rw [h] at hsize <;> obtain rfl := Option.some_inj.mp hsize
    · exact h2 (by decide)
    · exact h0 (by decide)
  rw [Request.result, compactControlBitsSrc3]
  simp only [hnib, hpred, hinv, hflag, hsub, ne_eq, not_true_eq_false, if_false, if_neg hwidth,
    hsize, Option.bind_some, hpattern]
  rfl

/-- Where something is refused, nothing is searched. -/
theorem result_of_not_searched {r : Request} (h : ¬ r.Searched) : r.result = none := by
  cases r with
  | control s => exact if_pos h
  | dataType v dst src0 src1 =>
    have hfile : src0.file = GEN_IMMEDIATE_VALUE := not_not.mp h
    simp only [Request.result, compactDataTypeBits, if_pos hfile, ite_self]
  | subReg dst src0 src1 => exact absurd trivial h
  | srcReg s src => exact if_pos (not_not.mp h)
  | src3Control s =>
    by_contra hsome
    obtain ⟨i, hi⟩ := Option.ne_none_iff_exists'.mp hsome
    rw [Request.result, compactControlBitsSrc3] at hi
    split_ifs at hi with hnib hpred hinv hflag hsub hwidth
    refine h ⟨not_not.mp hnib, not_not.mp hpred, not_not.mp hinv, ?_, not_not.mp hsub⟩
    generalize s.flag = x at hflag
    revert x
    decide

/-- A lookup whose pattern is in the table succeeds, with an index that decompaction maps
back to the pattern, exactly when nothing is refused and the search does not miss that
pattern. -/
theorem request_found_iff (r : Request) {e : Entry} (he : e ∈ r.table.entries)
    (hkey : r.key = some e.bit_pattern) :
    (∃ i, r.result = some i ∧
      patternAt r.table.inverse (truncate r.table.indexBits i) = e.bit_pattern) ↔
        r.Searched ∧ e.index ∉ r.table.missed := by
  by_cases hsearched : r.Searched
  · have hresult : r.result = lookup e.bit_pattern r.table.entries := by
      cases r with
      | control s => exact result_control he hkey hsearched
      | dataType v dst src0 src1 => exact result_dataType he hkey hsearched
      | subReg dst src0 src1 => exact congrArg (lookup · subreg_table) (Option.some_inj.mp hkey)
      | srcReg s src => exact result_srcReg he hkey hsearched
      | src3Control s => exact result_src3Control he hkey hsearched
    rw [hresult, and_iff_right hsearched]
    exact lookup_complete_iff r.table he
  · rw [result_of_not_searched hsearched]
    refine ⟨?_, fun h => absurd h.1 hsearched⟩
    rintro ⟨i, hi, -⟩
    cases hi

/-- A register in single precision, in the file of general registers. -/
def generalF (nr : BitVec 8) : GenRegister :=
  ⟨0, nr, 0, GEN_TYPE_F, GEN_GENERAL_REGISTER_FILE, 0, 0, 4, 3, 1, 0, 0, 0⟩

theorem request_found_iff_mov :
    (∃ i, (Request.dataType .gen7 (generalF 10) (generalF 20) none).result = some i ∧
      patternAt data_type_decompact (truncate 5 i) = 0b001000001110111101) ↔
        (Request.dataType .gen7 (generalF 10) (generalF 20) none).Searched ∧
          (8 : BitVec 32) ∉ Table.dataType.missed :=
  request_found_iff (.dataType .gen7 (generalF 10) (generalF 20) none)
    (e := ⟨0b001000001110111101, 8⟩) (by decide) (by decide)

/-- `ADD g10<1>F g20<8,8,1>F g30<8,8,1>F` in the eighth generation: its types are in the
table, and they are not found. -/
theorem add_types_missed : ∃ e ∈ gen8_data_type_table,
    (Request.dataType .gen8 (generalF 10) (generalF 20) (some (generalF 30))).key =
      some e.bit_pattern ∧
    compactDataTypeBits .gen8 (generalF 10) (generalF 20) (some (generalF 30)) = none := by
  refine ⟨⟨0b001011101011101011101, 18⟩, by decide, by decide, by decide +kernel⟩

end Compact
