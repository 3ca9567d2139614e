/-
Whether the host reads from a printf record what the device has written there.

The arguments of a statement give a table of widths twice: by the types that are stored, and by
the conversions that are read.  Both sides lay their table out behind the header of 12 bytes, so
that they are in step exactly where the tables are the same, and where the 8 bits of `srcNum`
hold the number of elements.

* `inStep_iff_rows` — the two sides are in step exactly where their tables agree.
* `rows_agree_iff` — the rows of one conversion agree exactly where it is `Fits`.
* **`printf_in_step_iff`** — which statements are in step.
* `outputPrintf_bufferFrom` — the walk over the buffer visits every record of a run.
-/
import Beignet.Backend.Printf

namespace Backend

namespace Printf

open Llvm.PrintfParser
open Ir.Printf (PrintfState PrintfSlot PrintfLog Printer Memory printOutOneStatement states
  magicNumber)

/-! ### A statement on both sides -/

/-- What the compiler makes of a statement: the format for the host, the sources that are passed
to the device, and the instructions that are selected for them. -/
structure Statement where
  fmt : List PrintfSlot
  tuple : List (Source IrType)
  insns : List SelPrintf

/-- `none` where the statement is not accepted. -/
def compilePrintf (B : Builder) (pointer64 : Bool) (num : ℕ) (format : List Char)
    (args : List Value) : Option Statement :=
  match parseOnePrintfInstruction B format args with
  | none => none
  | some (fmt, args') =>
    match tupleFrom pointer64 0 args' with
    | none => none
    | some tuple => (selectPrintf (PRINTF tuple num)).map fun insns => ⟨fmt, tuple, insns⟩

namespace Statement

variable (s : Statement) (data : ℕ × ℕ → ℕ → ℕ) (mem : Memory) (base : ℕ)

def log : PrintfLog := .ofAddress ((emitPrintf base s.insns).memory data mem) base

def printed : Printer := printOutOneStatement s.fmt (s.log data mem base)

/-- The record at `base` has the length that its header announces, every source that is passed
is stored, the host reads each from the bytes where it is stored, and ends at the record's end,
where `outputPrintf` goes next. -/
structure InStep : Prop where
  magic : (s.log data mem base).magic = magicNumber
  length : 4 * (emitPrintf base s.insns).writes.length = (s.log data mem base).size
  stored : ∀ src ∈ s.tuple, (emitPrintf base s.insns).bytes src.key ≠ []
  reads : ∀ key, Fields.bytes (s.printed data mem base).reads key =
    (emitPrintf base s.insns).bytes key
  ends : (s.printed data mem base).log.content = base + (s.log data mem base).size

end Statement

/-! ### The table of the device -/

/-- How many bytes a source of the type takes in the record. -/
def width (type : IrType) : ℕ := (getGenType type).elim 0 storedSize

def scalarWidth (pointer64 : Bool) (s : ScalarType) : ℕ := (getType pointer64 s).elim 0 width

def argWidths (pointer64 : Bool) (arg : Value) : List ℕ :=
  if arg.cString.isSome then []
  else
    match arg.type with
    | .vector n elt => List.replicate n (scalarWidth pointer64 elt)
    | .scalar s => [scalarWidth pointer64 s]

variable {pointer64 : Bool}

theorem argWidths_of_string {arg : Value} (h : arg.cString.isSome) :
    argWidths pointer64 arg = [] := if_pos h

theorem argWidths_of_vector {arg : Value} (h : ¬ arg.cString.isSome) {n : ℕ} {elt : ScalarType}
    (htype : arg.type = .vector n elt) :
    argWidths pointer64 arg = List.replicate n (scalarWidth pointer64 elt) := by
  rw [argWidths, if_neg h, htype]

theorem argWidths_of_scalar {arg : Value} (h : ¬ arg.cString.isSome) {t : ScalarType}
    (htype : arg.type = .scalar t) : argWidths pointer64 arg = [scalarWidth pointer64 t] := by
  rw [argWidths, if_neg h, htype]

theorem argSources_items {n : ℕ} {arg : Value} {srcs : List (Source IrType)}
    (h : argSources pointer64 n arg = some srcs) :
    srcs.map (fun s => (s.key, width s.type)) = Fields.row n 0 (argWidths pointer64 arg) := by
  unfold argSources at h
  split at h
  · rename_i hstr
    simp only [Option.some.injEq] at h
    subst h
    rw [argWidths_of_string hstr]
    rfl
  · rename_i hstr
    split at h
    · rename_i hty
      split at h
      · simp at h
      · rename_i htype
        split at h
        · simp at h
        · simp only [Option.some.injEq] at h
          subst h
          rw [argWidths_of_vector hstr hty, scalarWidth, htype, Fields.row_replicate,
            List.map_map]
          rfl
    · rename_i hty
      obtain ⟨type, htype, rfl⟩ := Option.map_eq_some_iff.mp h
      rw [argWidths_of_scalar hstr hty, scalarWidth, htype]
      rfl

theorem tupleFrom_items {n : ℕ} {args : List Value} {tuple : List (Source IrType)}
    (h : tupleFrom pointer64 n args = some tuple) :
    tuple.map (fun s => (s.key, width s.type)) =
      Fields.table n (args.map (argWidths pointer64)) := by
  induction args generalizing n tuple with
  | nil =>
    simp only [tupleFrom, Option.some.injEq] at h
    subst h
    rfl
  | cons arg args ih =>
    simp only [tupleFrom] at h
    split at h
    · rename_i srcs rest hsrcs hrest
      simp only [Option.some.injEq] at h
      subst h
      rw [List.map_append, argSources_items hsrcs, ih hrest]
      rfl
    · simp at h

theorem mapM_selReg {srcs : List (Source IrType)} {regs : List (Source GenType)}
    (h : srcs.mapM selReg = some regs) :
    stored regs = srcs.map (fun s => (s.key, width s.type)) := by
  induction srcs generalizing regs with
  | nil =>
    simp only [List.mapM_nil, Option.pure_def, Option.some.injEq] at h
    subst h
    rfl
  | cons src srcs ih =>
    simp only [List.mapM_cons, Option.pure_def, Option.bind_eq_bind, Option.bind_eq_some_iff,
      Option.some.injEq] at h
    obtain ⟨reg, hreg, regs', hregs, rfl⟩ := h
    obtain ⟨type, htype, rfl⟩ := Option.map_eq_some_iff.mp hreg
    have := ih hregs
    simp only [stored, List.map_cons] at this ⊢
    rw [this]
    simp [width, htype]

/-- The size that selection counts for a type is the one that is stored, where any is. -/
theorem sourceSize_eq {type : IrType} (h : width type ≠ 0) : sourceSize type = width type := by
  cases type <;> first | rfl | exact absurd rfl h

theorem sourceSize_le (type : IrType) : sourceSize type ≤ 8 := by
  unfold sourceSize
  split <;> omega

theorem totalSize_le (srcs : List (Source IrType)) : totalSize srcs ≤ 8 * srcs.length := by
  have := List.sum_le_card_nsmul (srcs.map fun s => sourceSize s.type) 8 fun n hn => by
    obtain ⟨s, -, rfl⟩ := List.mem_map.mp hn
    exact sourceSize_le s.type
  simpa [totalSize, Nat.mul_comm] using this

/-- At most 255 sources of at most 8 bytes are counted, so that `printfSize` holds their size. -/
theorem totalSize_take_mod (tuple : List (Source IrType)) :
    totalSize (tuple.take (tuple.length % 256)) % 2 ^ 16 =
      totalSize (tuple.take (tuple.length % 256)) := by
  refine Nat.mod_eq_of_lt ?_
  have := totalSize_le (tuple.take (tuple.length % 256))
  have := List.length_take_le (tuple.length % 256) tuple
  have := Nat.mod_lt tuple.length (show 256 > 0 by omega)
  omega

/-! ### The record -/

/-- The record of an accepted statement: the header with the announced size, and the first
sources of the tuple, as many as `srcNum` counts. -/
theorem emitPrintf_writes {tuple : List (Source IrType)} {num : ℕ} {insns : List SelPrintf}
    (h : selectPrintf (PRINTF tuple num) = some insns) (base : ℕ) :
    Writes (header base (totalSize (tuple.take (tuple.length % 256))) (num % 2 ^ 16))
      (emitPrintf base insns)
      ((tuple.map fun s => (s.key, width s.type)).take (tuple.length % 256)) := by
  obtain ⟨regs, hregs, rfl⟩ := Option.map_eq_some_iff.mp h
  replace hregs : (tuple.take (tuple.length % 256)).mapM selReg = some regs := hregs
  have hlen : regs.length = (tuple.take (tuple.length % 256)).length := by
    simpa [stored] using congrArg List.length (mapM_selReg hregs)
  show Writes _ (emitPrintf base (selectChunks (num % 2 ^ 16)
    (totalSize (tuple.take (tuple.length % 256)))
    ((tuple.take (tuple.length % 256)).length + 1) false regs)) _
  rw [← hlen, emitPrintf_selectChunks, totalSize_take_mod, ← List.map_take, ← mapM_selReg hregs]
  exact foldl_emitSource_writes _ _

theorem bytes_header (base size num : ℕ) (key : ℕ × ℕ) : (header base size num).bytes key = [] := by
  simp [header, Emit.untypedWrite, Emit.bytes, wordBytes]

section

variable {s : Statement} {num : ℕ} {rows : List (List ℕ)}

theorem widths_ne_zero_iff {tuple : List (Source IrType)}
    (htuple : tuple.map (fun s => (s.key, width s.type)) = Fields.table 0 rows) :
    (∀ ws ∈ rows, 0 ∉ ws) ↔ ∀ src ∈ tuple, width src.type ≠ 0 := by
  have hwidths : tuple.map (fun s => width s.type) = rows.flatten := by
    rw [← Fields.widths_table 0, ← htuple, List.map_map]
    rfl
  have hflat : (∀ ws ∈ rows, 0 ∉ ws) ↔ 0 ∉ rows.flatten := by
    rw [List.mem_flatten]
    push Not
    rfl
  rw [hflat, ← hwidths, List.mem_map]
  push Not
  rfl

/-- A source of the tuple has as many bytes as its type is wide. -/
theorem weight_source {tuple : List (Source IrType)}
    (htuple : tuple.map (fun s => (s.key, width s.type)) = Fields.table 0 rows)
    {src : Source IrType} (h : src ∈ tuple) :
    Fields.weight (Fields.table 0 rows) src.key = width src.type := by
  refine Fields.weight_of_mem (Fields.nodup_keys_table 0 rows) ?_
  rw [← htuple]
  exact List.mem_map.mpr ⟨src, h, rfl⟩

theorem totalSize_eq {tuple : List (Source IrType)} (h : ∀ src ∈ tuple, width src.type ≠ 0) :
    totalSize tuple = Fields.total (tuple.map fun s => (s.key, width s.type)) := by
  rw [totalSize, Fields.total, List.map_map]
  refine congrArg List.sum (List.map_congr_left fun src hsrc => ?_)
  exact sourceSize_eq (h src hsrc)

/-- The bytes of a source that `srcNum` does not count: no other one has its key. -/
theorem bytes_of_left_out (hsel : selectPrintf (PRINTF s.tuple num) = some s.insns)
    (htuple : s.tuple.map (fun s => (s.key, width s.type)) = Fields.table 0 rows)
    (hge : 256 ≤ s.tuple.length) (base : ℕ) :
    ∃ src ∈ s.tuple, (emitPrintf base s.insns).bytes src.key = [] := by
  have hm : s.tuple.length % 256 < s.tuple.length := by omega
  refine ⟨_, List.getElem_mem hm, ?_⟩
  rw [(emitPrintf_writes hsel base).bytes, bytes_header, List.nil_append,
    ← List.length_eq_zero_iff, Fields.length_bytes_place]
  refine Fields.weight_eq_zero fun hmem => ?_
  have hnodup := Fields.nodup_keys_table 0 rows
  rw [← htuple, List.map_map, ← List.take_append_drop (s.tuple.length % 256) (s.tuple.map _),
    List.nodup_append] at hnodup
  rw [List.map_take, List.map_map] at hmem
  refine hnodup.2.2 _ hmem _ ?_ rfl
  rw [← List.map_drop, List.drop_eq_getElem_cons hm]
  exact List.mem_cons_self

/-- The record of a statement whose sources are all counted. -/
theorem emitPrintf_writes_table (hsel : selectPrintf (PRINTF s.tuple num) = some s.insns)
    (htuple : s.tuple.map (fun s => (s.key, width s.type)) = Fields.table 0 rows)
    (hlt : s.tuple.length < 256) (base : ℕ) :
    Writes (header base (totalSize s.tuple) (num % 2 ^ 16)) (emitPrintf base s.insns)
      (Fields.table 0 rows) := by
  have h := emitPrintf_writes hsel base
  rwa [Nat.mod_eq_of_lt hlt, List.take_of_length_le (by simp), List.take_of_length_le (by simp),
    htuple] at h

/-- The two sides are in step exactly where the device passes at most 255 elements and stores
them as wide as the host reads them. -/
theorem inStep_iff_rows (hsel : selectPrintf (PRINTF s.tuple num) = some s.insns)
    (htuple : s.tuple.map (fun s => (s.key, width s.type)) = Fields.table 0 rows)
    (hlen : rows.length = (states s.fmt).length)
    (hpos : ∀ st ∈ states s.fmt, 0 ∉ st.widths)
    (data : ℕ × ℕ → ℕ → ℕ) (mem : Memory) (base : ℕ) :
    s.InStep data mem base ↔
      s.tuple.length < 256 ∧ (∀ ws ∈ rows, 0 ∉ ws) ∧
        rows = (states s.fmt).map PrintfState.widths := by
  by_cases hlt : s.tuple.length < 256
  swap
  · refine iff_of_false (fun h => ?_) fun h => hlt h.1
    obtain ⟨src, hsrc, hnil⟩ := bytes_of_left_out hsel htuple (Nat.le_of_not_lt hlt) base
    exact h.stored src hsrc hnil
  have hw := emitPrintf_writes_table hsel htuple hlt base
  have hlog : s.log data mem base =
      ⟨magicNumber, totalSize s.tuple + 12, num % 2 ^ 16, base + 12⟩ := ofAddress_memory hw data mem
  have hbytes : ∀ key, (emitPrintf base s.insns).bytes key =
      Fields.bytes (Fields.place (base + 12) (Fields.table 0 rows)) key := by
    intro key
    rw [hw.bytes, bytes_header, List.nil_append]
    rfl
  have hreads : (s.printed data mem base).reads = Fields.place (base + 12)
      (Fields.table 0 ((states s.fmt).map PrintfState.widths)) := by
    rw [Statement.printed, Ir.Printf.reads_printOutOneStatement, hlog]
  have hweight : ∀ src ∈ s.tuple,
      ((emitPrintf base s.insns).bytes src.key).length = width src.type := by
    intro src hsrc
    rw [hbytes, Fields.length_bytes_place, weight_source htuple hsrc]
  rw [and_iff_right hlt]
  constructor
  · intro h
    have hnz : ∀ ws ∈ rows, 0 ∉ ws := by
      rw [widths_ne_zero_iff htuple]
      intro src hsrc hzero
      refine h.stored src hsrc ?_
      rw [← List.length_eq_zero_iff, hweight src hsrc, hzero]
    refine ⟨hnz, Fields.eq_of_weights (by simpa using hlen) hnz ?_ fun key => ?_⟩
    · intro ws hws
      obtain ⟨st, hst, rfl⟩ := List.mem_map.mp hws
      exact hpos st hst
    · have := congrArg List.length (h.reads key)
      rw [hreads, hbytes, Fields.length_bytes_place, Fields.length_bytes_place] at this
      exact this.symm
  · rintro ⟨hnz, hrows⟩
    rw [widths_ne_zero_iff htuple] at hnz
    have htotal : totalSize s.tuple = Fields.total (Fields.table 0 rows) := by
      rw [totalSize_eq hnz, htuple]
    refine ⟨?_, ?_, fun src hsrc hnil => ?_, fun key => ?_, ?_⟩
    · rw [hlog]
    · rw [hw.length, hlog, htotal, Nat.add_comm]
      rfl
    · refine hnz src hsrc ?_
      rw [← hweight src hsrc, hnil, List.length_nil]
    · rw [hreads, hbytes, hrows]
    · rw [Statement.printed, Ir.Printf.content_printOutOneStatement, hlog, ← hrows, htotal]
      show base + 12 + _ = base + (_ + 12)
      omega

end

/-! ### The conversions -/

/-- The conversions of a format, each with its argument. -/
def conversions (format : List Char) (args : List Value) : List (PrintfState × Value) :=
  (states ((parserPrintfFmt format).getD [])).zip args

def elements (arg : Value) : ℕ :=
  match arg.type with
  | .vector n _ => n
  | .scalar _ => 1

/-- What is passed in the place of the argument is taken for a C string. -/
def PassedAsString (B : Builder) (state : PrintfState) (arg : Value) : Prop :=
  ∃ q, generateOneParameterInst B state arg = some q ∧ q.2.cString.isSome

/-- The conversion is no `%c`; a `%s` has a constant string; any other has an argument that is
not taken for a string, with as many elements as it prints; and a floating argument is not
printed as a long integer. -/
structure Fits (B : Builder) (state : PrintfState) (arg : Value) : Prop where
  character : state.conversion_specifier.kind ≠ .character
  string : state.conversion_specifier.kind = .str → arg.cString.isSome
  passed : state.conversion_specifier.kind ≠ .str → ¬ PassedAsString B state arg
  elements : state.conversion_specifier.kind ≠ .str → elements arg = state.vecNum
  long : state.conversion_specifier.kind = .integer →
    arg.type = .scalar .float ∨ arg.type = .scalar .double → state.length_modifier ≠ .L

def passedElements (l : List (PrintfState × Value)) : ℕ :=
  (l.map fun p => if p.1.conversion_specifier.kind = .str then 0 else elements p.2).sum

section

variable {B : Builder} {state state' : PrintfState} {arg arg' : Value}

theorem vecNum_pos (state : PrintfState) : 0 < state.vecNum := by
  unfold PrintfState.vecNum
  split <;> omega

theorem dataSize_pos (h : state.conversion_specifier.kind ≠ .str) : 0 < state.dataSize := by
  unfold PrintfState.dataSize
  split
  · split <;> omega
  · omega
  · omega
  · omega
  · contradiction

theorem zero_notMem_widths (state : PrintfState) : 0 ∉ state.widths := by
  unfold PrintfState.widths
  split
  · simp
  · rename_i hkind
    intro h
    exact (dataSize_pos hkind).ne (List.eq_of_mem_replicate h)

/-- The row of the device and the row of the host agree. -/
def Agree (pointer64 : Bool) (state : PrintfState) (arg : Value) : Prop :=
  0 ∉ argWidths pointer64 arg ∧ argWidths pointer64 arg = state.widths

theorem agree_str_iff (hkind : state.conversion_specifier.kind = .str) {t : ScalarType}
    (htype : arg.type = .scalar t) : Agree pointer64 state arg ↔ arg.cString.isSome := by
  rw [Agree, PrintfState.widths, if_pos hkind]
  by_cases hstr : arg.cString.isSome
  · simp [argWidths_of_string hstr, hstr]
  · simp [argWidths_of_scalar hstr htype, hstr]

theorem agree_iff (hkind : state.conversion_specifier.kind ≠ .str) {n w : ℕ}
    (hwidths : ¬ arg.cString.isSome → argWidths pointer64 arg = List.replicate n w) :
    Agree pointer64 state arg ↔
      ¬ arg.cString.isSome ∧ n = state.vecNum ∧ w = state.dataSize := by
  have hvec := vecNum_pos state
  have hdata := dataSize_pos hkind
  rw [Agree, PrintfState.widths, if_neg hkind]
  by_cases hstr : arg.cString.isSome
  · have hne : List.replicate state.vecNum state.dataSize ≠ [] := by
      simp [hvec.ne']
    simp [argWidths_of_string hstr, hstr, hne.symm]
  · rw [hwidths hstr, List.replicate_inj]
    constructor
    · rintro ⟨-, hn, hw⟩
      refine ⟨hstr, hn, ?_⟩
      rcases hw with h0 | hw
      · omega
      · exact hw
    · rintro ⟨-, hn, hw⟩
      refine ⟨fun h => ?_, hn, .inr hw⟩
      have := List.eq_of_mem_replicate h
      omega

theorem fits_iff (h : generateOneParameterInst B state arg = some (state', arg'))
    (hkind : state.conversion_specifier.kind ≠ .str) {w : ℕ}
    (hw : w = state.dataSize ↔ state.conversion_specifier.kind ≠ .character ∧
      (state.conversion_specifier.kind = .integer →
        arg.type = .scalar .float ∨ arg.type = .scalar .double → state.length_modifier ≠ .L)) :
    (¬ arg'.cString.isSome ∧ elements arg = state.vecNum ∧ w = state.dataSize) ↔
      Fits B state arg := by
  have hpassed : PassedAsString B state arg ↔ arg'.cString.isSome := by
    constructor
    · rintro ⟨q, hq, hstr⟩
      rw [h, Option.some.injEq] at hq
      rwa [← hq] at hstr
    · exact fun hstr => ⟨_, h, hstr⟩
  rw [hw, ← hpassed]
  constructor
  · rintro ⟨hp, he, hc, hl⟩
    exact ⟨hc, fun hs => absurd hs hkind, fun _ => hp, fun _ => he, hl⟩
  · rintro hf
    exact ⟨hf.passed hkind, hf.elements hkind, hf.character, hf.long⟩

/-- The conversions that read data, from the type that the argument is passed at. -/
theorem agree_iff_fits (h : generateOneParameterInst B state arg = some (state', arg'))
    (hkind : state.conversion_specifier.kind ≠ .str) {t : ScalarType}
    (htype : arg'.type = .scalar t ∧ elements arg = 1 ∨ arg'.type = .vector (elements arg) t)
    (hw : scalarWidth pointer64 t = state.dataSize ↔
      state.conversion_specifier.kind ≠ .character ∧
      (state.conversion_specifier.kind = .integer →
        arg.type = .scalar .float ∨ arg.type = .scalar .double → state.length_modifier ≠ .L)) :
    Agree pointer64 state arg' ↔ Fits B state arg := by
  have hwidths : ¬ arg'.cString.isSome →
      argWidths pointer64 arg' = List.replicate (elements arg) (scalarWidth pointer64 t) := by
    intro hstr
    rcases htype with ⟨hscalar, hone⟩ | hvector
    · rw [argWidths_of_scalar hstr hscalar, hone, List.replicate_one]
    · exact argWidths_of_vector hstr hvector
  exact (agree_iff hkind hwidths).trans (fits_iff h hkind hw)

/-- The rows of an accepted conversion agree exactly where it fits. -/
theorem rows_agree_iff (h : generateOneParameterInst B state arg = some (state', arg')) :
    Agree pointer64 state' arg' ↔ Fits B state arg := by
  obtain ⟨⟨str, rfl⟩, hpass⟩ := generateOneParameterInst_passes h
  show Agree pointer64 state arg' ↔ _
  have hstring : state.conversion_specifier.kind = .str → arg' = arg →
      ∀ {t}, arg.type = .scalar t → (Agree pointer64 state arg' ↔ Fits B state arg) := by
    rintro hkind rfl t htype
    rw [agree_str_iff hkind htype]
    constructor
    · intro hstr
      refine ⟨by simp [hkind], fun _ => hstr, fun hne => absurd hkind hne,
        fun hne => absurd hkind hne, by simp [hkind]⟩
    · exact fun hf => hf.string hkind
  cases hpass with
  | intString harg hkind harg' => exact hstring hkind harg' harg
  | pointerString harg hkind hstr harg' => exact hstring hkind harg' harg
  | vectorInteger harg hkind harg' =>
    refine agree_iff_fits h (by simp [hkind]) (.inr (by rw [harg', elements, harg])) ?_
    by_cases hL : state.length_modifier = .L <;>
      simp [PrintfState.dataSize, hkind, integerBits, hL, scalarWidth, getType, width,
        getGenType, storedSize, harg]
  | vectorFloating harg hkind harg' =>
    refine agree_iff_fits h (by simp [hkind]) (.inr (by rw [harg', elements, harg])) ?_
    simp [PrintfState.dataSize, hkind, scalarWidth, getType, width, getGenType, storedSize]
  | intInteger harg hkind harg' =>
    refine agree_iff_fits h (by simp [hkind]) (.inl ⟨harg', by rw [elements, harg]⟩) ?_
    by_cases hL : state.length_modifier = .L <;>
      simp [PrintfState.dataSize, hkind, integerBits, hL, scalarWidth, getType, width,
        getGenType, storedSize, harg]
  | intCharacter harg hkind harg' =>
    -- four bytes are stored and one is read
    refine agree_iff_fits h (by simp [hkind]) (.inl ⟨harg', by rw [elements, harg]⟩) ?_
    simp [PrintfState.dataSize, hkind, scalarWidth, getType, width, getGenType, storedSize]
  | intFloating harg hkind harg' =>
    refine agree_iff_fits h (by simp [hkind]) (.inl ⟨harg', by rw [elements, harg]⟩) ?_
    simp [PrintfState.dataSize, hkind, scalarWidth, getType, width, getGenType, storedSize]
  | floatInteger harg hkind harg' =>
    -- the front end converts to 32 bits, whatever the length modifier
    have hone : elements arg = 1 := by rcases harg with harg | harg <;> rw [elements, harg]
    refine agree_iff_fits h (by simp [hkind]) (.inl ⟨harg', hone⟩) ?_
    by_cases hL : state.length_modifier = .L <;>
      simp [PrintfState.dataSize, hkind, hL, scalarWidth, getType, width, getGenType,
        storedSize, harg]
  | floatFloating harg hkind harg' =>
    have hone : elements arg = 1 := by rcases harg with harg | harg <;> rw [elements, harg]
    refine agree_iff_fits h (by simp [hkind]) (.inl ⟨harg', hone⟩) ?_
    simp [PrintfState.dataSize, hkind, scalarWidth, getType, width, getGenType, storedSize]
  | pointerPointer harg hkind harg' =>
    refine agree_iff_fits h (by simp [hkind]) (.inl ⟨harg', by rw [elements, harg]⟩) ?_
    simp [PrintfState.dataSize, hkind, scalarWidth, getType, width, getGenType, storedSize]

/-- The elements that are passed, where all rows agree. -/
theorem length_row_of_fits (h : generateOneParameterInst B state arg = some (state', arg'))
    (hf : Fits B state arg) :
    state'.widths.length =
      if state.conversion_specifier.kind = .str then 0 else elements arg := by
  obtain ⟨⟨str, rfl⟩, -⟩ := generateOneParameterInst_passes h
  show (PrintfState.widths state).length = _
  unfold PrintfState.widths
  split
  · rfl
  · rename_i hkind
    rw [List.length_replicate, hf.elements hkind]

theorem forall_fits_iff {l q : List (PrintfState × Value)}
    (h : List.Forall₂ (fun p q => generateOneParameterInst B p.1 p.2 = some q) l q) :
    (∀ x ∈ q, Agree pointer64 x.1 x.2) ↔ ∀ p ∈ l, Fits B p.1 p.2 := by
  induction h with
  | nil => simp
  | cons hone _ ih => simp only [List.forall_mem_cons, ih, rows_agree_iff hone]

theorem sum_length_widths {l q : List (PrintfState × Value)}
    (h : List.Forall₂ (fun p q => generateOneParameterInst B p.1 p.2 = some q) l q)
    (hf : ∀ p ∈ l, Fits B p.1 p.2) :
    ((q.map Prod.fst).map (List.length ∘ PrintfState.widths)).sum = passedElements l := by
  induction h with
  | nil => rfl
  | cons hone _ ih =>
    rw [List.forall_mem_cons] at hf
    rw [List.map_cons, List.map_cons, List.sum_cons, ih hf.2]
    exact congrArg (· + passedElements _) (length_row_of_fits hone hf.1)

/-- An accepted statement with what the front end passes on. -/
theorem compilePrintf_eq_some {num : ℕ} {format : List Char} {args : List Value} {s : Statement}
    (h : compilePrintf B pointer64 num format args = some s) :
    ∃ q, List.Forall₂ (fun p q => generateOneParameterInst B p.1 p.2 = some q)
        (conversions format args) q ∧
      states s.fmt = q.map Prod.fst ∧
      tupleFrom pointer64 0 (q.map Prod.snd) = some s.tuple ∧
      selectPrintf (PRINTF s.tuple num) = some s.insns := by
  unfold compilePrintf at h
  split at h
  · simp at h
  · rename_i fmt' args' hparse
    split at h
    · simp at h
    · rename_i tuple htuple
      obtain ⟨insns, hsel, rfl⟩ := Option.map_eq_some_iff.mp h
      unfold parseOnePrintfInstruction at hparse
      split at hparse
      · simp at hparse
      · split at hparse
        · simp at hparse
        · rename_i fmt hfmt
          split at hparse
          · simp at hparse
          · rename_i hlen
            obtain ⟨q, hall, hstates, rfl⟩ := convertArgs_pairs hparse (not_not.mp hlen)
            refine ⟨q, ?_, hstates, htuple, hsel⟩
            rwa [conversions, hfmt]

/-- An accepted statement is in step exactly where each of its conversions fits its argument and
the arguments have fewer than 256 elements together. -/
theorem printf_in_step_iff {num : ℕ} {format : List Char} {args : List Value} {s : Statement}
    (h : compilePrintf B pointer64 num format args = some s) (data : ℕ × ℕ → ℕ → ℕ)
    (mem : Memory) (base : ℕ) :
    s.InStep data mem base ↔
      (∀ p ∈ conversions format args, Fits B p.1 p.2) ∧
        passedElements (conversions format args) < 256 := by
  obtain ⟨q, hall, hstates, htuple, hsel⟩ := compilePrintf_eq_some h
  have hitems := tupleFrom_items htuple
  rw [List.map_map] at hitems
  have hrows : ((∀ ws ∈ q.map (argWidths pointer64 ∘ Prod.snd), 0 ∉ ws) ∧
      q.map (argWidths pointer64 ∘ Prod.snd) = (states s.fmt).map PrintfState.widths) ↔
      ∀ p ∈ conversions format args, Fits B p.1 p.2 := by
    rw [← forall_fits_iff hall, hstates, List.map_map, List.map_inj_left, List.forall_mem_map,
      ← forall₂_and]
    rfl
  rw [inStep_iff_rows hsel hitems (by simp [hstates]) (fun st _ => zero_notMem_widths st), hrows,
    and_comm]
  refine and_congr_right fun hf => ?_
  have hlen : s.tuple.length = passedElements (conversions format args) := by
    rw [← sum_length_widths hall hf, ← hstates]
    have hflat := congrArg List.length (congrArg (List.map Prod.snd) hitems)
    rw [Fields.widths_table, (hrows.mpr hf).2, List.length_flatten, List.map_map] at hflat
    simpa using hflat
  rw [hlen]

/-- `printf("%ld:%v4f", …)` of a 32-bit integer and of four floats is in step. -/
theorem printf_in_step_vector :
    ∃ s, compilePrintf instructionBuilder true 0 ['%', 'l', 'd', ':', '%', 'v', '4', 'f']
        [⟨.scalar (.int 32), none⟩, ⟨.vector 4 .float, none⟩] = some s ∧
      ∀ data mem base, s.InStep data mem base := by
  obtain ⟨s, hs⟩ : ∃ s, compilePrintf instructionBuilder true 0
      ['%', 'l', 'd', ':', '%', 'v', '4', 'f']
      [⟨.scalar (.int 32), none⟩, ⟨.vector 4 .float, none⟩] = some s := ⟨_, rfl⟩
  refine ⟨s, hs, fun data mem base => (printf_in_step_iff hs data mem base).mpr ⟨?_, ?_⟩⟩
  · show ∀ p ∈ [(({ length_modifier := .L, conversion_specifier := .D } : PrintfState),
      (⟨.scalar (.int 32), none⟩ : Value)),
      ({ vector_n := 4, conversion_specifier := .f }, ⟨.vector 4 .float, none⟩)], _
    simp only [List.forall_mem_cons]
    refine ⟨⟨by decide, by decide, ?_, by decide, by decide⟩,
      ⟨by decide, by decide, ?_, by decide, by decide⟩, by simp⟩
    · rintro - ⟨q, hq, hstr⟩
      cases hq
      simp [instructionBuilder] at hstr
    · rintro - ⟨q, hq, hstr⟩
      cases hq
      simp at hstr
  · decide

/-- `printf("%c%d", …)` of two integers is accepted and not in step: the host takes one of the
four bytes that the character is stored in, and reads the integer from the other three on. -/
theorem character_out_of_step :
    ∃ s, compilePrintf instructionBuilder true 0 ['%', 'c', '%', 'd']
        [⟨.scalar (.int 32), none⟩, ⟨.scalar (.int 32), none⟩] = some s ∧
      Fields.bytes (s.printed (fun _ _ => 0) (fun _ => 0) 4).reads (1, 0) = [17, 18, 19, 20] ∧
      (emitPrintf 4 s.insns).bytes (1, 0) = [20, 21, 22, 23] ∧
      ¬ s.InStep (fun _ _ => 0) (fun _ => 0) 4 := by
  refine ⟨_, rfl, by decide, by decide, fun h => ?_⟩
  have := h.reads (1, 0)
  revert this
  decide

/-! ### The buffer -/

/-- What the atomic addition reserves for a record. -/
def Statement.announced (s : Statement) : ℕ := (s.insns.head?.elim 0 SelPrintf.printfSize) + 12

def Statement.number (s : Statement) : ℕ := s.insns.head?.elim 0 SelPrintf.printfNum

/-- The buffer after the records of a run, in the order of their atomic additions, from `base`
on: each record is a statement with the values of its sources. -/
def bufferFrom (base : ℕ) (mem : Memory) : List (Statement × (ℕ × ℕ → ℕ → ℕ)) → Memory
  | [] => mem
  | r :: records =>
    bufferFrom (base + r.1.announced) ((emitPrintf base r.1.insns).memory r.2 mem) records

def printedFrom (base : ℕ) : List (Statement × (ℕ × ℕ → ℕ → ℕ)) → List Printer
  | [] => []
  | r :: records =>
    printOutOneStatement r.1.fmt ⟨magicNumber, r.1.announced, r.1.number, base + 12⟩ ::
      printedFrom (base + r.1.announced) records

def Selected (s : Statement) : Prop := ∃ num, selectPrintf (PRINTF s.tuple num) = some s.insns

theorem Selected.writes {s : Statement} (h : Selected s) (base : ℕ) :
    ∃ size items, s.announced = size + 12 ∧
      Writes (header base size s.number) (emitPrintf base s.insns) items := by
  obtain ⟨num, hsel⟩ := h
  have hw := emitPrintf_writes hsel base
  obtain ⟨regs, -, hinsns⟩ := Option.map_eq_some_iff.mp hsel
  have hnum : s.number = num % 2 ^ 16 := by
    rw [Statement.number, ← hinsns]
    rfl
  refine ⟨_, _, ?_, hnum ▸ hw⟩
  rw [← totalSize_take_mod, Statement.announced, ← hinsns]
  rfl

theorem memory_bufferFrom_of_lt {records : List (Statement × (ℕ × ℕ → ℕ → ℕ))}
    (hsel : ∀ r ∈ records, Selected r.1) {base : ℕ} (mem : Memory) {a : ℕ} (ha : a < base) :
    bufferFrom base mem records a = mem a := by
  induction records generalizing base mem with
  | nil => rfl
  | cons r records ih =>
    rw [List.forall_mem_cons] at hsel
    rw [bufferFrom, ih hsel.2 _ (by omega)]
    obtain ⟨size, items, -, hw⟩ := hsel.1.writes base
    obtain ⟨l, hl, hle⟩ := hw.behind
    refine memory_of_behind r.2 (fun w hmem => ?_) mem
    rw [hl] at hmem
    -- the header starts at `base`, and what follows lies behind it
    rcases List.mem_append.mp hmem with hmem | hmem
    · simp only [header, Emit.untypedWrite, List.nil_append, List.cons_append,
        List.mem_cons, List.not_mem_nil, or_false] at hmem
      rcases hmem with rfl | rfl | rfl <;> show a < _ <;> omega
    · have : base + 4 + 4 + 4 ≤ w.1 := hle w hmem
      omega

/-- The walk of the host over the records from `base` on. -/
theorem outputPrintfFrom_bufferFrom (fmts : ℕ → Option (List PrintfSlot))
    {records : List (Statement × (ℕ × ℕ → ℕ → ℕ))} (hsel : ∀ r ∈ records, Selected r.1)
    (hfmts : ∀ r ∈ records, fmts r.1.number = some r.1.fmt) (base : ℕ) (mem : Memory) {fuel : ℕ}
    (hfuel : records.length < fuel) :
    Ir.Printf.outputPrintfFrom fmts (bufferFrom base mem records)
        (base + (records.map fun r => r.1.announced).sum) fuel base =
      some (printedFrom base records) := by
  induction records generalizing base mem fuel with
  | nil =>
    obtain ⟨fuel, rfl⟩ := Nat.exists_eq_add_one_of_ne_zero (Nat.ne_of_gt hfuel)
    simp [Ir.Printf.outputPrintfFrom, printedFrom]
  | cons r records ih =>
    obtain ⟨fuel, rfl⟩ := Nat.exists_eq_add_one_of_ne_zero (Nat.ne_of_gt (Nat.zero_lt_of_lt hfuel))
    rw [List.forall_mem_cons] at hsel hfmts
    obtain ⟨size, items, hsize, hw⟩ := hsel.1.writes base
    have hrest := ih hsel.2 hfmts.2 (base + r.1.announced)
      ((emitPrintf base r.1.insns).memory r.2 mem) (show records.length < fuel by simpa using hfuel)
    -- the records after this one leave its header
    have hlog : PrintfLog.ofAddress (bufferFrom base mem (r :: records)) base =
        ⟨magicNumber, r.1.announced, r.1.number, base + 12⟩ := by
      rw [hsize, ← ofAddress_memory hw r.2 mem]
      simp only [PrintfLog.ofAddress, bufferFrom]
      rw [memory_bufferFrom_of_lt hsel.2 _ (by omega), memory_bufferFrom_of_lt hsel.2 _ (by omega),
        memory_bufferFrom_of_lt hsel.2 _ (by omega)]
    rw [Ir.Printf.outputPrintfFrom, List.map_cons, List.sum_cons, if_pos (by omega)]
    simp only [hlog, hfmts.1]
    rw [← Nat.add_assoc]
    show Option.map _ (Ir.Printf.outputPrintfFrom fmts (bufferFrom (base + r.1.announced) _ records)
      _ _ _) = _
    rw [hrest]
    rfl

/-- `outputPrintf` visits every record of a run where the device has put it, in the order of the
atomic additions. -/
theorem outputPrintf_bufferFrom (fmts : ℕ → Option (List PrintfSlot))
    {records : List (Statement × (ℕ × ℕ → ℕ → ℕ))} (hsel : ∀ r ∈ records, Selected r.1)
    (hfmts : ∀ r ∈ records, fmts r.1.number = some r.1.fmt) {mem : Memory}
    (hmem : mem 0 = 4 + (records.map fun r => r.1.announced).sum) :
    Ir.Printf.outputPrintf fmts (bufferFrom 4 mem records) = some (printedFrom 4 records) := by
  have hbuf : bufferFrom 4 mem records 0 = 4 + (records.map fun r => r.1.announced).sum := by
    rw [memory_bufferFrom_of_lt hsel mem (by omega), hmem]
  have hfuel : records.length < 4 + (records.map fun r => r.1.announced).sum := by
    have := List.card_nsmul_le_sum (records.map fun r => r.1.announced) 1 fun n hn => by
      obtain ⟨r, -, rfl⟩ := List.mem_map.mp hn
      exact Nat.le_add_left 1 _
    rw [List.length_map, nsmul_one, Nat.cast_id] at this
    omega
  rw [Ir.Printf.outputPrintf, hbuf]
  exact outputPrintfFrom_bufferFrom fmts hsel hfmts 4 mem hfuel

end

end Printf

end Backend
