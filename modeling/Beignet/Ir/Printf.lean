/-
The host side of `printf` (`ir/printf.hpp`, `ir/printf.cpp`): the slots of a format, the log of
one work-item in the printf buffer, and `outputPrintf`, which walks the buffer.

The buffer is memory that the device writes in dwords: a memory gives the dword at every byte
address.  A read of the host is recorded with the conversion it is for, the element of it, and
the bytes that it takes.

* `reads_printOutOneStatement` — the reads of one statement lie one after another, each as
  wide as its conversion.
-/
import Beignet.Lib.Fields

namespace Ir

namespace Printf

/-! ### Formats -/

inductive LengthModifier where
  | NONE | HH | H | L | HL
  deriving DecidableEq

inductive Conversion where
  | D | I | O | U | X | x | F | f | E | e | G | g | A | a | C | S | P
  deriving DecidableEq

/-- The groups of conversions that the switches of the front end and of the host treat alike. -/
inductive Kind where
  | integer | floating | character | str | pointer
  deriving DecidableEq

def Conversion.kind : Conversion → Kind
  | .D | .I | .O | .U | .X | .x => .integer
  | .F | .f | .E | .e | .G | .g | .A | .a => .floating
  | .C => .character
  | .S => .str
  | .P => .pointer

/-- `sign_symbol` is 0 for nothing, 1 for a sign, 2 for a space. -/
structure PrintfState where
  left_justified : Bool := false
  sign_symbol : ℕ := 0
  alter_form : Bool := false
  zero_padding : Bool := false
  vector_n : ℕ := 0
  min_width : ℤ := -1
  precision : ℤ := -1
  length_modifier : LengthModifier := .NONE
  conversion_specifier : Conversion
  str : String := ""
  deriving DecidableEq

inductive PrintfSlot where
  | string (str : String)
  | state (state : PrintfState)
  deriving DecidableEq

def generatePrintfFmtString (state : PrintfState) : String :=
  "%" ++ (if state.left_justified then "-" else "")
    ++ (if state.sign_symbol = 1 then "+" else if state.sign_symbol = 2 then " " else "")
    ++ (if state.alter_form then "#" else "")
    ++ (if state.zero_padding then "0" else "")
    ++ (if state.min_width ≥ 0 then toString state.min_width else "")
    ++ (if state.precision ≥ 0 then "." ++ toString state.precision else "")
    ++ (match state.length_modifier with
        | .HH => "hh"
        | .H => "h"
        | .L => "l"
        | .HL | .NONE => "")

/-- The letter that `PRINT_SOMETHING` appends. -/
def Conversion.letter : Conversion → String
  | .D | .I => "d"
  | .O => "o"
  | .U => "u"
  | .X => "X"
  | .x => "x"
  | .F => "F"
  | .f => "f"
  | .E => "E"
  | .e => "e"
  | .G => "G"
  | .g => "g"
  | .A => "A"
  | .a => "a"
  | .C => "c"
  | .S => "s"
  | .P => "p"

/-- The size of the type that `getData` is called at: `uint64_t` or `int`, `char`, `float`, and
`int` for a pointer. -/
def PrintfState.dataSize (state : PrintfState) : ℕ :=
  match state.conversion_specifier.kind with
  | .integer => if state.length_modifier = .L then 8 else 4
  | .character => 1
  | .floating => 4
  | .pointer => 4
  | .str => 0

def PrintfState.vecNum (state : PrintfState) : ℕ :=
  if state.vector_n > 0 then state.vector_n else 1

/-! ### The log of one work-item -/

/-- The dword at each byte address. -/
abbrev Memory := ℕ → ℕ

def magicNumber : ℕ := 0xAABBCCDD

/-- The `content` is the address that the next `getData` reads. -/
structure PrintfLog where
  magic : ℕ
  size : ℕ
  statementNum : ℕ
  content : ℕ

def PrintfLog.ofAddress (mem : Memory) (p : ℕ) : PrintfLog :=
  ⟨mem p, mem (p + 4), mem (p + 8), p + 12⟩

def PrintfLog.getData (log : PrintfLog) (size : ℕ) : PrintfLog :=
  { log with content := log.content + size }

inductive Output where
  | text (str : String)
  | str (format : String) (str : String)
  | data (format : String) (read : Fields.Field (ℕ × ℕ))

def Output.read? : Output → Option (Fields.Field (ℕ × ℕ))
  | .data _ read => some read
  | _ => none

structure Printer where
  pf_str : String
  log : PrintfLog
  out : List Output

def Printer.reads (h : Printer) : List (Fields.Field (ℕ × ℕ)) := h.out.filterMap Output.read?

/-- One round of the loop over `vec_i`, for the `k`-th conversion of the statement.  A string
appends its letter in each round, every other conversion in the first one. -/
def printElement (k : ℕ) (state : PrintfState) (h : Printer) (vec_i : ℕ) : Printer :=
  let out := if vec_i = 0 then h.out else h.out ++ [Output.text ","]
  if state.conversion_specifier.kind = .str then
    let pf_str := h.pf_str ++ "s"
    { h with pf_str := pf_str, out := out ++ [.str pf_str state.str] }
  else
    let pf_str :=
      if vec_i = 0 then h.pf_str ++ state.conversion_specifier.letter else h.pf_str
    { pf_str := pf_str
      log := h.log.getData state.dataSize
      out := out ++ [.data pf_str ⟨(k, vec_i), h.log.content, state.dataSize⟩] }

def printSlot (h : ℕ × Printer) : PrintfSlot → ℕ × Printer
  | .string s => (h.1, { h.2 with out := h.2.out ++ [.text s] })
  | .state state =>
    (h.1 + 1, (List.range state.vecNum).foldl (printElement h.1 state)
      { h.2 with pf_str := generatePrintfFmtString state })

def printOutOneStatement (fmt : List PrintfSlot) (log : PrintfLog) : Printer :=
  (fmt.foldl printSlot (0, ⟨"", log, []⟩)).2

/-- The loop of `outputPrintf`, where `p` is always `parsed` bytes into the buffer: `none` where
an assertion fails.  A log of size 0 would be printed for ever; `fuel` bounds the rounds. -/
def outputPrintfFrom (fmts : ℕ → Option (List PrintfSlot)) (buf : Memory) (totalSZ : ℕ) :
    ℕ → ℕ → Option (List Printer)
  | 0, _ => some []
  | fuel + 1, parsed =>
    if parsed < totalSZ then
      let log := PrintfLog.ofAddress buf parsed
      if log.magic = magicNumber then
        match fmts log.statementNum with
        | none => none
        | some fmt =>
          (outputPrintfFrom fmts buf totalSZ fuel (parsed + log.size)).map
            (printOutOneStatement fmt log :: ·)
      else none
    else some []

def outputPrintf (fmts : ℕ → Option (List PrintfSlot)) (buf : Memory) : Option (List Printer) :=
  outputPrintfFrom fmts buf (buf 0) (buf 0) 4

/-! ### What a statement reads -/

/-- The conversions of a format, in order. -/
def states : List PrintfSlot → List PrintfState
  | [] => []
  | .string _ :: fmt => states fmt
  | .state s :: fmt => s :: states fmt

/-- The widths of the reads that a conversion makes. -/
def PrintfState.widths (state : PrintfState) : List ℕ :=
  if state.conversion_specifier.kind = .str then [] else List.replicate state.vecNum state.dataSize

/-- What the printing of the conversions from `k` on leaves: the reads lie one after another,
and the log stands behind them. -/
structure Reads (h h' : Printer) (items : List ((ℕ × ℕ) × ℕ)) : Prop where
  reads : h'.reads = h.reads ++ Fields.place h.log.content items
  content : h'.log.content = h.log.content + Fields.total items

theorem Reads.trans {h h' h'' : Printer} {l l' : List ((ℕ × ℕ) × ℕ)} (h1 : Reads h h' l)
    (h2 : Reads h' h'' l') : Reads h h'' (l ++ l') := by
  refine ⟨?_, ?_⟩
  · rw [h2.reads, h1.reads, h1.content, Fields.place_append, List.append_assoc]
  · rw [h2.content, h1.content, Fields.total_append, Nat.add_assoc]

theorem printElement_reads {state : PrintfState} (hkind : state.conversion_specifier.kind ≠ .str)
    (k : ℕ) (h : Printer) (vec_i : ℕ) :
    Reads h (printElement k state h vec_i) [((k, vec_i), state.dataSize)] := by
  rw [printElement, if_neg hkind]
  refine ⟨?_, by simp [PrintfLog.getData, Fields.total]⟩
  by_cases hv : vec_i = 0 <;>
    simp [Printer.reads, hv, List.filterMap_cons, Output.read?, Fields.place]

theorem printElement_str {state : PrintfState} (hkind : state.conversion_specifier.kind = .str)
    (k : ℕ) (h : Printer) (vec_i : ℕ) : Reads h (printElement k state h vec_i) [] := by
  rw [printElement, if_pos hkind]
  refine ⟨?_, rfl⟩
  by_cases hv : vec_i = 0 <;>
    simp [Printer.reads, hv, List.filterMap_cons, Output.read?, Fields.place]

theorem foldl_printElement (k : ℕ) (state : PrintfState) (h : Printer) (n : ℕ) :
    Reads h ((List.range n).foldl (printElement k state) h)
      (Fields.row k 0 (if state.conversion_specifier.kind = .str then []
        else List.replicate n state.dataSize)) := by
  induction n with
  | zero => split <;> exact ⟨by simp [Fields.row, Fields.place], by simp⟩
  | succ n ih =>
    rw [List.range_succ, List.foldl_append]
    split
    · rename_i hkind
      rw [if_pos hkind] at ih
      exact ih.trans (printElement_str hkind k _ n)
    · rename_i hkind
      rw [if_neg hkind] at ih
      rw [List.replicate_succ', Fields.row_append, List.length_replicate, Nat.zero_add]
      exact ih.trans (printElement_reads hkind k _ n)

theorem printSlot_state (k : ℕ) (h : Printer) (state : PrintfState) :
    Reads h (printSlot (k, h) (.state state)).2 (Fields.row k 0 state.widths) := by
  have := foldl_printElement k state { h with pf_str := generatePrintfFmtString state }
    state.vecNum
  exact ⟨this.reads, this.content⟩

theorem foldl_printSlot (fmt : List PrintfSlot) (k : ℕ) (h : Printer) :
    Reads h (fmt.foldl printSlot (k, h)).2
      (Fields.table k ((states fmt).map PrintfState.widths)) := by
  induction fmt generalizing k h with
  | nil => exact ⟨by simp [states, Fields.table, Fields.place], rfl⟩
  | cons slot fmt ih =>
    cases slot with
    | string s =>
      have := ih k { h with out := h.out ++ [.text s] }
      refine ⟨?_, this.content⟩
      have htext : Printer.reads { h with out := h.out ++ [.text s] } = h.reads := by
        simp [Printer.reads, Output.read?]
      rw [← htext]
      exact this.reads
    | state st => exact (printSlot_state k h st).trans (ih (k + 1) _)

/-- The reads of a statement lie one after another from the content of its log on. -/
theorem reads_printOutOneStatement (fmt : List PrintfSlot) (log : PrintfLog) :
    (printOutOneStatement fmt log).reads =
      Fields.place log.content (Fields.table 0 ((states fmt).map PrintfState.widths)) :=
  (foldl_printSlot fmt 0 ⟨"", log, []⟩).reads

theorem content_printOutOneStatement (fmt : List PrintfSlot) (log : PrintfLog) :
    (printOutOneStatement fmt log).log.content = log.content
      + Fields.total (Fields.table 0 ((states fmt).map PrintfState.widths)) :=
  (foldl_printSlot fmt 0 ⟨"", log, []⟩).content

end Printf

end Ir
