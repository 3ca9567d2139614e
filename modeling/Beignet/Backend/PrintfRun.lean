/-
What the host prints after a run in which work-items have called `printf`.

Each call leaves a record in the buffer, in the order of the atomic additions, and the host prints
the records after the run.

* `holds_emitPrintf` — the record has the words of the sources, where the host looks for them;
* **`outputPrintf_meaning`** — what is printed is the meaning of each call, one after another.
-/
import Beignet.Backend.PrintfRecord
import Beignet.Llvm.PrintfOutput

namespace Backend

namespace Printf

open Llvm.PrintfParser
open Ir.Printf (PrintfState PrintfSlot PrintfLog Printer Memory printOutOneStatement states
  magicNumber)

variable {mem mem' : Memory} {data : ℕ × ℕ → ℕ → ℕ}

/-! ### The words of the sources -/

/-- The items are in the memory one after another, each with its words. -/
def Lies (mem : Memory) (data : ℕ × ℕ → ℕ → ℕ) : ℕ → List ((ℕ × ℕ) × ℕ) → Prop
  | _, [] => True
  | addr, (key, w) :: items =>
    (4 ≤ w → mem addr = data key 0) ∧ (w = 8 → mem (addr + 4) = data key 1) ∧
      Lies mem data (addr + w) items

theorem lies_append {addr : ℕ} {l l' : List ((ℕ × ℕ) × ℕ)} :
    Lies mem data addr (l ++ l') ↔
      Lies mem data addr l ∧ Lies mem data (addr + Fields.total l) l' := by
  induction l generalizing addr with
  | nil => simp [Lies, Fields.total]
  | cons i l ih =>
    have htotal : Fields.total (i :: l) = i.2 + Fields.total l := by simp [Fields.total]
    simp only [List.cons_append, Lies, ih, htotal, Nat.add_assoc, and_assoc]

/-- Only the bytes of the items matter. -/
theorem Lies.congr {addr : ℕ} {l : List ((ℕ × ℕ) × ℕ)} (h : Lies mem data addr l)
    (hmem : ∀ a < addr + Fields.total l, mem' a = mem a) : Lies mem' data addr l := by
  induction l generalizing addr with
  | nil => trivial
  | cons i l ih =>
    have htotal : Fields.total (i :: l) = i.2 + Fields.total l := by simp [Fields.total]
    obtain ⟨h0, h1, hrest⟩ := h
    refine ⟨fun hw => ?_, fun hw => ?_, ih hrest fun a ha => hmem a (by omega)⟩
    · rw [hmem _ (by omega), h0 hw]
    · rw [hmem _ (by omega), h1 hw]

theorem lies_emitSource (e : Emit) (src : Source GenType) (mem : Memory) :
    Lies ((emitSource e src).memory data mem) data e.addr [(src.key, storedSize src.type)] := by
  obtain ⟨key, type⟩ := src
  cases type <;>
    simp [Lies, emitSource, emitPrintfLongInstruction, Emit.untypedWrite, Emit.memory,
      Word.value, storedSize]

theorem lies_foldl (e : Emit) (srcs : List (Source GenType)) (mem : Memory) :
    Lies ((srcs.foldl emitSource e).memory data mem) data e.addr (stored srcs) := by
  induction srcs generalizing e with
  | nil => trivial
  | cons src srcs ih =>
    have hsrc := emitSource_writes e src
    have hrest := ih (emitSource e src)
    rw [hsrc.addr] at hrest
    refine lies_append.mpr ⟨(lies_emitSource e src mem).congr fun a ha => ?_, hrest⟩
    -- the sources that follow are written behind this one
    obtain ⟨l, hl, hle⟩ := (foldl_emitSource_writes (emitSource e src) srcs).behind
    rw [Emit.memory, hl, List.foldl_append]
    refine memory_of_behind data (fun w hw => ?_) _
    have := hle w hw
    have := hsrc.addr
    omega

/-- The record of a statement whose sources are all counted. -/
theorem lies_emitPrintf {s : Statement} {num : ℕ}
    (hsel : selectPrintf (PRINTF s.tuple num) = some s.insns) (hlt : s.tuple.length < 256)
    (base : ℕ) (mem : Memory) :
    Lies ((emitPrintf base s.insns).memory data mem) data (base + 12)
      (s.tuple.map fun src => (src.key, width src.type)) := by
  obtain ⟨regs, hregs, hinsns⟩ := Option.map_eq_some_iff.mp hsel
  have hall : (PRINTF s.tuple num).tuple.take (PRINTF s.tuple num).srcNum = s.tuple :=
    List.take_of_length_le (Nat.mod_eq_of_lt hlt).ge
  rw [hall] at hregs hinsns
  have hlen : s.tuple.length = regs.length := by
    simpa [stored] using congrArg List.length (mapM_selReg hregs).symm
  rw [← mapM_selReg hregs, ← hinsns, hlen, emitPrintf_selectChunks]
  exact lies_foldl _ regs mem

/-! ### The values that are read -/

/-- The value of a source that is read with `size` bytes. -/
def sourceValue (data : ℕ × ℕ → ℕ → ℕ) (key : ℕ × ℕ) (size : ℕ) : ℕ :=
  if size = 8 then data key 0 + 2 ^ 32 * data key 1 else data key 0 % 2 ^ (8 * size)

/-- The values of the conversions from `n` on: a string is in the format, and the elements of
another argument are sources. -/
def argsFrom (data : ℕ × ℕ → ℕ → ℕ) (n : ℕ) : List PrintfState → List (List Arg)
  | [] => []
  | st :: sts =>
    (if st.conversion_specifier.kind = .str then [.str st.str]
      else (List.range st.vecNum).map fun i =>
        .data st.dataSize (sourceValue data (n, i) st.dataSize)) :: argsFrom data (n + 1) sts

theorem lies_row {addr n k w : ℕ} (h : Lies mem data addr (Fields.row n 0 (List.replicate k w)))
    (hw : w = 4 ∨ w = 8) {i : ℕ} (hi : i < k) :
    dataAt mem (addr + w * i) w = sourceValue data (n, i) w := by
  induction k with
  | zero => omega
  | succ k ih =>
    rw [List.replicate_succ', Fields.row_append, lies_append, Fields.total_row] at h
    obtain hik | rfl := Nat.lt_succ_iff_lt_or_eq.mp hi
    · exact ih h.1 hik
    · obtain ⟨h0, h1, -⟩ := h.2
      simp only [List.sum_replicate_nat, List.length_replicate, Nat.zero_add, Nat.mul_comm i]
        at h0 h1
      obtain rfl | rfl := hw
      · simp [dataAt, sourceValue, h0]
      · simp [dataAt, sourceValue, h0, h1]

/-- The host finds its arguments in a record that has the rows of its conversions. -/
theorem holds_of_lies {fmt : List PrintfSlot} {addr n : ℕ}
    (h : Lies mem data addr (Fields.table n ((states fmt).map PrintfState.widths)))
    (hchar : ∀ st ∈ states fmt, st.conversion_specifier.kind ≠ .character)
    (hstr : ∀ st ∈ states fmt, st.conversion_specifier.kind = .str → st.vector_n = 0) :
    Holds mem addr fmt (argsFrom data n (states fmt)) := by
  induction fmt generalizing addr n with
  | nil => exact .nil addr
  | cons slot fmt ih =>
    cases slot with
    | string text => exact .string text (ih h hchar hstr)
    | state st =>
      simp only [states, List.map_cons, Fields.table, lies_append, List.forall_mem_cons,
        Fields.total_row, argsFrom] at h hchar hstr ⊢
      have hrest := ih h.2 hchar.2 hstr.2
      by_cases hkind : st.conversion_specifier.kind = .str
      · rw [if_pos hkind]
        rw [PrintfState.widths, if_pos hkind] at hrest
        exact .str hkind (hstr.1 hkind) hrest
      · have hsize : st.dataSize = 4 ∨ st.dataSize = 8 := by
          unfold PrintfState.dataSize
          split <;> simp_all
          exact (em _).symm
        rw [PrintfState.widths, if_neg hkind] at h hrest
        rw [List.sum_replicate_nat, Nat.mul_comm] at hrest
        have hargs : (List.range st.vecNum).map (fun i => Arg.data st.dataSize
            (sourceValue data (n, i) st.dataSize)) = elementsAt mem addr st := by
          refine List.map_congr_left fun i hi => ?_
          rw [lies_row h.1 hsize (List.mem_range.mp hi)]
        rw [if_neg hkind, hargs]
        exact .data hkind hrest

/-! ### The run -/

/-- A call of `printf` in a work-item: the statement, and the values of its sources. -/
structure Call where
  items : List Item
  args : List Value
  num : ℕ
  statement : Statement
  data : ℕ × ℕ → ℕ → ℕ

/-- The characters that a call stands for. -/
def Call.meant (host : List Char → Arg → List Char) (c : Call) : List Char :=
  meaning host c.items (argsFrom c.data 0 (states c.statement.fmt))

/-- The statement is accepted, and each conversion fits its argument; there is no vector of
strings, and no doubled percent sign. -/
structure Call.Ok (B : Builder) (pointer64 : Bool) (c : Call) : Prop where
  compiled : compilePrintf B pointer64 c.num (spellAll c.items) c.args = some c.statement
  fits : ∀ p ∈ conversions (spellAll c.items) c.args, Fits B p.1 p.2
  few : passedElements (conversions (spellAll c.items) c.args) < 256
  strings : ∀ st ∈ states c.statement.fmt, st.conversion_specifier.kind = .str → st.vector_n = 0
  percent : .percent ∉ c.items

section

variable {B : Builder} {pointer64 : Bool} {c : Call}

theorem kind_ne_character {l q : List (PrintfState × Value)}
    (h : List.Forall₂ (fun p q => generateOneParameterInst B p.1 p.2 = some q) l q)
    (hf : ∀ p ∈ l, Fits B p.1 p.2) :
    ∀ st ∈ q.map Prod.fst, st.conversion_specifier.kind ≠ .character := by
  induction h with
  | nil => simp
  | cons hone _ ih =>
    rw [List.forall_mem_cons] at hf
    obtain ⟨⟨str, hstr⟩, -⟩ := generateOneParameterInst_passes hone
    rw [List.map_cons, List.forall_mem_cons, hstr]
    exact ⟨hf.1.character, ih hf.2⟩

/-- What the compiler has made of the call. -/
structure Call.Compiled (c : Call) : Prop where
  selected : selectPrintf (PRINTF c.statement.tuple c.num) = some c.statement.insns
  few : c.statement.tuple.length < 256
  table : c.statement.tuple.map (fun src => (src.key, width src.type)) =
    Fields.table 0 ((states c.statement.fmt).map PrintfState.widths)
  wide : ∀ src ∈ c.statement.tuple, width src.type ≠ 0
  character : ∀ st ∈ states c.statement.fmt, st.conversion_specifier.kind ≠ .character
  slots : List.Forall₂ Recorded (slotsFrom [] c.items) c.statement.fmt

theorem Call.Ok.fmt (h : c.Ok B pointer64) :
    List.Forall₂ Recorded (slotsFrom [] c.items) c.statement.fmt := by
  have hcompiled := h.compiled
  unfold compilePrintf at hcompiled
  split at hcompiled
  · cases hcompiled
  · rename_i fmt args hparse
    have hfmt : fmt = c.statement.fmt := by
      split at hcompiled
      · cases hcompiled
      · obtain ⟨insns, -, heq⟩ := Option.map_eq_some_iff.mp hcompiled
        exact congrArg Statement.fmt heq
    rw [← hfmt]
    rw [parseOnePrintfInstruction, parserPrintfFmt_iff.mpr ⟨c.items, rfl, rfl⟩] at hparse
    split at hparse
    · cases hparse
    · dsimp only at hparse
      split at hparse
      · cases hparse
      · exact convertArgs_recorded hparse

theorem Call.Ok.compiles (h : c.Ok B pointer64) : c.Compiled := by
  obtain ⟨q, hall, hstates, htuple, hsel⟩ := compilePrintf_eq_some h.compiled
  have hagree : ∀ x ∈ q, Agree pointer64 x.1 x.2 := (forall_fits_iff hall).mpr h.fits
  have hitems := tupleFrom_items htuple
  have hrows : (q.map Prod.snd).map (argWidths pointer64) =
      (states c.statement.fmt).map PrintfState.widths := by
    rw [hstates, List.map_map, List.map_map]
    exact List.map_congr_left fun x hx => (hagree x hx).2
  have hlength : c.statement.tuple.length =
      passedElements (conversions (spellAll c.items) c.args) := by
    rw [← sum_length_widths hall h.fits, ← hstates]
    have := congrArg List.length (congrArg (List.map Prod.snd) hitems)
    rwa [Fields.widths_table, hrows, List.length_flatten, List.length_map, List.length_map,
      List.map_map] at this
  refine ⟨hsel, hlength ▸ h.few, hrows ▸ hitems, ?_, ?_, h.fmt⟩
  · rw [← widths_ne_zero_iff hitems, List.map_map, List.forall_mem_map]
    exact fun x hx => (hagree x hx).1
  · rw [hstates]
    exact kind_ne_character hall h.fits

theorem Call.Compiled.announced (h : c.Compiled) : c.statement.announced =
    Fields.total (c.statement.tuple.map fun src => (src.key, width src.type)) + 12 := by
  obtain ⟨regs, -, hinsns⟩ := Option.map_eq_some_iff.mp h.selected
  have hsize : c.statement.announced =
      totalSize (c.statement.tuple.take (c.statement.tuple.length % 256)) % 2 ^ 16 + 12 := by
    rw [Statement.announced, ← hinsns]
    rfl
  rw [hsize, totalSize_take_mod, Nat.mod_eq_of_lt h.few, List.take_length, totalSize_eq h.wide]

/-- The record of a call, whatever is written behind it. -/
theorem Call.Ok.printed (h : c.Ok B pointer64) {host : List Char → Arg → List Char}
    (hstd : Standard host) {base : ℕ}
    (hmem : ∀ a < base + c.statement.announced,
      mem' a = (emitPrintf base c.statement.insns).memory c.data mem a) (log : PrintfLog)
    (hlog : log.content = base + 12) :
    Llvm.PrintfParser.printed host mem' (printOutOneStatement c.statement.fmt log).out =
      c.meant host := by
  have hc := h.compiles
  have hlies : Lies _ c.data _ _ := lies_emitPrintf hc.selected hc.few base mem
  have hkeeps := hlies.congr fun a ha => hmem a (by rw [hc.announced]; omega)
  rw [hc.table, ← hlog] at hkeeps
  rw [printed_printOutOneStatement hstd hc.slots log
    (holds_of_lies hkeeps hc.character h.strings)]
  exact render_of_notMem h.percent _ _

/-- The buffer after a run, as in `bufferFrom`. -/
def records (calls : List Call) : List (Statement × (ℕ × ℕ → ℕ → ℕ)) :=
  calls.map fun c => (c.statement, c.data)

theorem selected_records {calls : List Call} (h : ∀ c ∈ calls, c.Ok B pointer64) :
    ∀ r ∈ records calls, Selected r.1 := by
  intro r hr
  obtain ⟨c, hc, rfl⟩ := List.mem_map.mp hr
  exact ⟨c.num, (h c hc).compiles.selected⟩

theorem printed_printedFrom {host : List Char → Arg → List Char} (hstd : Standard host)
    {calls : List Call} (h : ∀ c ∈ calls, c.Ok B pointer64) (base : ℕ) (mem : Memory) :
    (printedFrom base (records calls)).map
        (fun h => Llvm.PrintfParser.printed host (bufferFrom base mem (records calls)) h.out) =
      calls.map (Call.meant host) := by
  induction calls generalizing base mem with
  | nil => rfl
  | cons c calls ih =>
    rw [List.forall_mem_cons] at h
    refine List.cons_eq_cons.mpr ⟨?_, ih h.2 _ _⟩
    -- the records that follow leave this one as it is
    exact h.1.printed hstd (fun a => memory_bufferFrom_of_lt (selected_records h.2) _) _ rfl

end

end Printf

end Backend
