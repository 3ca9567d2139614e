/-
The parser of `printf` formats on its cursors: `__parse_printf_state` and `parser_printf_fmt` of
`llvm/llvm_printf_parser.cpp`.

A format is given without its NUL.  A cursor is the number of characters in front of it, and a read
behind the NUL ends the scan, as do the error returns, a number that does not fit in an `int`, and
a loop that runs out of fuel.

* `agrees_parsePrintfState` — a cursor stands in front of what the parser on lists has left;
* **`parser_printf_fmt_exact`** — which formats are accepted, and with which slots.
-/
import Beignet.Llvm.PrintfGrammar

namespace Llvm

namespace PrintfParser

open Ir.Printf

namespace Scanner

inductive Stop where
  /-- -1 and NULL -/
  | reject
  /-- behind the NUL -/
  | outside
  | overflow
  | fuel
  deriving DecidableEq

abbrev Scan := Except Stop

def maxInt : ℤ := 2147483647

/-- A value of type `int`. -/
def int (n : ℤ) : Scan ℤ := if n ≤ maxInt then pure n else throw .overflow

section

variable (format : List Char)

/-- `*p` -/
def fetch (p : ℕ) : Scan Char :=
  match format[p]? with
  | some c => pure c
  | none => if p = format.length then pure '\x00' else throw .outside

/-- `FMT_PLUS_PLUS` -/
def plusPlus (fmt : ℕ) : Scan ℕ :=
  if fmt + 1 ≤ format.length then pure (fmt + 1) else throw .reject

/-! ### `__parse_printf_state` -/

def flagsFrom : ℕ → ℕ → PrintfState → Scan (ℕ × PrintfState)
  | 0, _, _ => throw .fuel
  | fuel + 1, fmt, state => do
    let c ← fetch format fmt
    if c = '-' then
      let fmt ← plusPlus format fmt
      flagsFrom fuel fmt { state with left_justified := true }
    else if c = '+' then
      let fmt ← plusPlus format fmt
      flagsFrom fuel fmt { state with sign_symbol := 1 }
    else if c = ' ' then
      let fmt ← plusPlus format fmt
      flagsFrom fuel fmt
        (if state.sign_symbol = 0 then { state with sign_symbol := 2 } else state)
    else if c = '#' then
      let fmt ← plusPlus format fmt
      flagsFrom fuel fmt { state with alter_form := true }
    else if c = '0' then
      let fmt ← plusPlus format fmt
      flagsFrom fuel fmt
        (if state.left_justified then state else { state with zero_padding := true })
    else return (fmt, state)

/-- The loop of the width, which starts at -1.  That of the precision starts at 0 and needs no test
for it. -/
def digitsFrom : ℕ → ℕ → ℤ → Scan (ℕ × ℤ)
  | 0, _, _ => throw .fuel
  | fuel + 1, fmt, n => do
    let c ← fetch format fmt
    if isDigit c then
      let n ← int ((if n < 0 then 0 else n) * 10 + (c.toNat - '0'.toNat))
      let fmt ← plusPlus format fmt
      digitsFrom fuel fmt n
    else return (fmt, n)

def precisionAt (fmt : ℕ) : Scan (ℕ × ℤ) := do
  let c ← fetch format fmt
  if c = '.' then
    let fmt ← plusPlus format fmt
    digitsFrom format (format.length + 1) fmt 0
  else return (fmt, -1)

def vectorAt (fmt : ℕ) : Scan (ℕ × ℕ) := do
  let c ← fetch format fmt
  if c = 'v' then
    let fmt ← plusPlus format fmt
    let c ← fetch format fmt
    if c = '2' ∨ c = '3' ∨ c = '4' ∨ c = '8' then
      let fmt ← plusPlus format fmt
      return (fmt, c.toNat - '0'.toNat)
    else if c = '1' then
      let fmt ← plusPlus format fmt
      let c ← fetch format fmt
      if c = '6' then
        let fmt ← plusPlus format fmt
        return (fmt, 16)
      else throw .reject
    else throw .reject
  else return (fmt, 0)

def lengthAt (fmt : ℕ) : Scan (ℕ × LengthModifier) := do
  let c ← fetch format fmt
  if c = 'h' then
    let fmt ← plusPlus format fmt
    let c ← fetch format fmt
    if c = 'h' then
      let fmt ← plusPlus format fmt
      return (fmt, .HH)
    else if c = 'l' then
      let fmt ← plusPlus format fmt
      return (fmt, .HL)
    else return (fmt, .H)
  else if c = 'l' then
    let fmt ← plusPlus format fmt
    return (fmt, .L)
  else return (fmt, .NONE)

/-- The switch over the specifiers. -/
def specifier : Char → Option Conversion
  | 'd' => some .D
  | 'i' => some .I
  | 'o' => some .O
  | 'u' => some .U
  | 'x' => some .x
  | 'X' => some .X
  | 'f' => some .f
  | 'F' => some .F
  | 'e' => some .e
  | 'E' => some .E
  | 'g' => some .g
  | 'G' => some .G
  | 'a' => some .a
  | 'A' => some .A
  | 'c' => some .C
  | 's' => some .S
  | 'p' => some .P
  | _ => none

def conversionAt (fmt : ℕ) : Scan (ℕ × Conversion) := do
  let c ← fetch format fmt
  match specifier c with
  | some conversion => do
    let fmt ← plusPlus format fmt
    return (fmt, conversion)
  | none => throw .reject

/-- The cursor `rend` and the state. -/
def parsePrintfState (begin : ℕ) : Scan (ℕ × PrintfState) := do
  let c ← fetch format begin
  if c ≠ '%' then throw .reject
  let fmt ← plusPlus format begin
  let (fmt, state) ← flagsFrom format (format.length + 1) fmt { conversion_specifier := .D }
  let (fmt, min_width) ← digitsFrom format (format.length + 1) fmt (-1)
  let (fmt, precision) ← precisionAt format fmt
  let (fmt, vector_n) ← vectorAt format fmt
  let (fmt, length_modifier) ← lengthAt format fmt
  let (fmt, conversion) ← conversionAt format fmt
  return (fmt, { state with
    min_width := min_width
    precision := precision
    vector_n := vector_n
    length_modifier := length_modifier
    conversion_specifier := conversion })

/-! ### `parser_printf_fmt` -/

/-- The loop at `again`, with the inner one. -/
def textFrom : ℕ → ℕ → Scan ℕ
  | 0, _ => throw .fuel
  | fuel + 1, p => do
    if p < format.length then
      let c ← fetch format p
      if c ≠ '%' then textFrom fuel (p + 1)
      else if p + 1 = format.length then throw .reject
      else
        let d ← fetch format (p + 1)
        if d = '%' then textFrom fuel (p + 2) else return p
    else return p

/-- The outer loop, with the slots and `num` so far. -/
def slotsFrom : ℕ → ℕ → List PrintfSlot → ℕ → Scan (List PrintfSlot × ℕ)
  | 0, _, _, _ => throw .fuel
  | fuel + 1, begin, printf_fmt, num => do
    let c ← fetch format begin
    if c = '\x00' then return (printf_fmt, num)
    let p ← textFrom format (format.length + 1) begin
    let printf_fmt :=
      if p ≠ begin then
        printf_fmt ++ [PrintfSlot.string (String.ofList ((format.drop begin).take (p - begin)))]
      else printf_fmt
    if p = format.length then return (printf_fmt, num)
    let (rend, state) ← parsePrintfState format p
    let printf_fmt := printf_fmt ++ [PrintfSlot.state state]
    if rend = format.length then return (printf_fmt, num + 1)
    slotsFrom fuel rend printf_fmt (num + 1)

/-- The slots and their number `num` of conversions. -/
def parserPrintfFmt : Scan (List PrintfSlot × ℕ) := slotsFrom format (format.length + 1) 0 [] 0

end

/-! ### Cursors -/

section

variable {format l : List Char} {i fuel : ℕ} {c : Char} {state : PrintfState}

/-- The cursor stands in front of `l`. -/
def Stands (format : List Char) (i : ℕ) (l : List Char) : Prop :=
  i ≤ format.length ∧ format.drop i = l

namespace Stands

theorem nil (h : Stands format i []) : i = format.length :=
  le_antisymm h.1 (List.drop_eq_nil_iff.mp h.2)

theorem length (h : Stands format i l) : i + l.length = format.length := by
  rw [← h.2, List.length_drop]
  have := h.1
  omega

theorem fetch (h : Stands format i l) :
    Scanner.fetch format i = pure (l.headD '\x00') := by
  have hget : format[i]? = l.head? := by rw [← h.2, List.head?_drop]
  rw [Scanner.fetch, hget]
  cases l with
  | nil => rw [List.head?_nil, List.headD_nil]; exact if_pos h.nil
  | cons c l => rfl

theorem next (h : Stands format i (c :: l)) : Stands format (i + 1) l := by
  have hlen := h.length
  rw [List.length_cons] at hlen
  refine ⟨by omega, ?_⟩
  rw [← List.tail_drop, h.2, List.tail_cons]

theorem plusPlus (h : Stands format i (c :: l)) : Scanner.plusPlus format i = pure (i + 1) :=
  if_pos h.next.1

end Stands

theorem flagsFrom_eq (h : Stands format i l) (hfuel : l.length < fuel) :
    ∃ j, flagsFrom format fuel i state = pure (j, (parseFlags l state).1) ∧
      Stands format j (parseFlags l state).2 := by
  induction fuel generalizing i l state with
  | zero => exact absurd hfuel (Nat.not_lt_zero _)
  | succ fuel ih =>
    rw [flagsFrom, h.fetch, pure_bind]
    cases l with
    | nil => exact ⟨i, rfl, h⟩
    | cons c l =>
      have hnext : ∀ st, ∃ j, flagsFrom format fuel (i + 1) st = pure (j, (parseFlags l st).1) ∧
          Stands format j (parseFlags l st).2 := fun st =>
        ih h.next (Nat.lt_of_succ_lt_succ hfuel)
      simp only [List.headD_cons, h.plusPlus, pure_bind, parseFlags]
      by_cases hleft : c = '-'
      · simp only [if_pos hleft]
        exact hnext _
      by_cases hsign : c = '+'
      · simp only [if_neg hleft, if_pos hsign]
        exact hnext _
      by_cases hspace : c = ' '
      · simp only [if_neg hleft, if_neg hsign, if_pos hspace]
        exact hnext _
      by_cases halternative : c = '#'
      · simp only [if_neg hleft, if_neg hsign, if_neg hspace, if_pos halternative]
        exact hnext _
      by_cases hzero : c = '0'
      · simp only [if_neg hleft, if_neg hsign, if_neg hspace, if_neg halternative, if_pos hzero]
        exact hnext _
      · simp only [if_neg hleft, if_neg hsign, if_neg hspace, if_neg halternative, if_neg hzero]
        exact ⟨i, rfl, h⟩

theorem parseNumber_ge {n : ℤ} (hn : 0 ≤ n) (l : List Char) : n ≤ (parseNumber n l).1 := by
  induction l generalizing n with
  | nil => exact le_rfl
  | cons c l ih =>
    rw [parseNumber]
    split
    · next hc =>
      obtain ⟨d, rfl⟩ := isDigit_iff.mp hc
      rw [toNat_char]
      exact le_trans (by omega) (ih (by omega))
    · exact le_rfl

/-- What a scan of a number gives: the number and the cursor behind it, or the end of the scan. -/
def Number (format : List Char) (x : Scan (ℕ × ℤ)) (y : ℤ × List Char) : Prop :=
  (y.1 ≤ maxInt ∧ ∃ j, x = pure (j, y.1) ∧ Stands format j y.2) ∨
    (maxInt < y.1 ∧ x = throw .overflow)

theorem digitsFrom_number {n : ℤ} (h : Stands format i l) (hfuel : l.length < fuel) (hn : 0 ≤ n)
    (hmax : n ≤ maxInt) : Number format (digitsFrom format fuel i n) (parseNumber n l) := by
  induction fuel generalizing i l n with
  | zero => exact absurd hfuel (Nat.not_lt_zero _)
  | succ fuel ih =>
    rw [digitsFrom, h.fetch, pure_bind]
    cases l with
    | nil => exact Or.inl ⟨hmax, i, rfl, h⟩
    | cons c l =>
      rw [List.headD_cons, parseNumber]
      by_cases hc : isDigit c
      · obtain ⟨d, rfl⟩ := isDigit_iff.mp hc
        rw [if_pos hc, if_pos hc, if_neg (not_lt.mpr hn), toNat_char, int]
        by_cases hfits : n * 10 + d ≤ maxInt
        · rw [if_pos hfits, pure_bind, h.plusPlus, pure_bind]
          exact ih h.next (Nat.lt_of_succ_lt_succ hfuel) (by omega) hfits
        · rw [if_neg hfits]
          exact Or.inr ⟨lt_of_lt_of_le (not_le.mp hfits) (parseNumber_ge (by omega) l), rfl⟩
      · rw [if_neg hc, if_neg hc]
        exact Or.inl ⟨hmax, i, rfl, h⟩

theorem digitsFrom_minWidth (h : Stands format i l) :
    Number format (digitsFrom format (format.length + 1) i (-1)) (parseMinWidth l) := by
  have hlen := h.length
  rw [digitsFrom, h.fetch, pure_bind]
  cases l with
  | nil => exact Or.inl ⟨(by decide : (-1 : ℤ) ≤ maxInt), i, rfl, h⟩
  | cons c l =>
    rw [List.headD_cons, parseMinWidth]
    by_cases hc : isDigit c
    · obtain ⟨d, rfl⟩ := isDigit_iff.mp hc
      have hfits : (0 : ℤ) * 10 + d ≤ maxInt := by
        have := d.isLt
        rw [maxInt]
        omega
      rw [if_pos hc, if_pos hc, if_pos (by decide), toNat_char, int, if_pos hfits, pure_bind,
        h.plusPlus, pure_bind, parseNumber, if_pos hc, toNat_char]
      rw [List.length_cons] at hlen
      exact digitsFrom_number h.next (by omega) (by omega) hfits
    · rw [if_neg hc, if_neg hc]
      exact Or.inl ⟨(by decide : (-1 : ℤ) ≤ maxInt), i, rfl, h⟩

theorem precisionAt_number (h : Stands format i l) :
    Number format (precisionAt format i) (parsePrecision l) := by
  have hlen := h.length
  rw [precisionAt, h.fetch, pure_bind]
  cases l with
  | nil => exact Or.inl ⟨(by decide : (-1 : ℤ) ≤ maxInt), i, rfl, h⟩
  | cons c l =>
    rw [List.length_cons] at hlen
    rw [List.headD_cons]
    by_cases hc : c = '.'
    · subst hc
      rw [if_pos rfl, h.plusPlus, pure_bind]
      exact digitsFrom_number h.next (by omega) le_rfl (by decide)
    · rw [if_neg hc]
      have hnone : parsePrecision (c :: l) = (-1, c :: l) := by
        unfold parsePrecision
        split
        · next heq => exact absurd (List.cons.inj heq).1 hc
        · rfl
      rw [hnone]
      exact Or.inl ⟨(by decide : (-1 : ℤ) ≤ maxInt), i, rfl, h⟩

/-- What a scan of a part that may be missing gives. -/
def Part {α : Type} (format : List Char) (x : Scan (ℕ × α)) (y : Option (α × List Char)) : Prop :=
  (y = none ∧ x = throw .reject) ∨
    ∃ a l j, y = some (a, l) ∧ x = pure (j, a) ∧ Stands format j l

theorem vectorAt_part (h : Stands format i l) :
    Part format (vectorAt format i) (parseVector l) := by
  rw [vectorAt, h.fetch, pure_bind]
  cases l with
  | nil => exact Or.inr ⟨0, [], i, rfl, rfl, h⟩
  | cons c l =>
    rw [List.headD_cons]
    by_cases hc : c = 'v'
    · subst hc
      rw [if_pos rfl, h.plusPlus, pure_bind, h.next.fetch, pure_bind]
      cases l with
      | nil => exact Or.inl ⟨rfl, rfl⟩
      | cons d l =>
        rw [List.headD_cons]
        by_cases hsmall : d = '2' ∨ d = '3' ∨ d = '4' ∨ d = '8'
        · rw [if_pos hsmall, h.next.plusPlus, pure_bind]
          rcases hsmall with rfl | rfl | rfl | rfl <;>
            exact Or.inr ⟨_, l, _, rfl, rfl, h.next.next⟩
        rw [if_neg hsmall]
        simp only [not_or] at hsmall
        obtain ⟨h2, h3, h4, h8⟩ := hsmall
        by_cases hone : d = '1'
        · subst hone
          rw [if_pos rfl, h.next.plusPlus, pure_bind, h.next.next.fetch, pure_bind]
          cases l with
          | nil => exact Or.inl ⟨rfl, rfl⟩
          | cons e l =>
            rw [List.headD_cons]
            by_cases hsix : e = '6'
            · subst hsix
              rw [if_pos rfl, h.next.next.plusPlus, pure_bind]
              exact Or.inr ⟨16, l, _, rfl, rfl, h.next.next.next⟩
            · rw [if_neg hsix]
              refine Or.inl ⟨?_, rfl⟩
              unfold parseVector
              split <;> simp_all
        · rw [if_neg hone]
          refine Or.inl ⟨?_, rfl⟩
          unfold parseVector
          split <;> simp_all
    · rw [if_neg hc]
      refine Or.inr ⟨0, c :: l, i, ?_, rfl, h⟩
      unfold parseVector
      split <;> simp_all

theorem lengthAt_eq (h : Stands format i l) : ∃ j,
    lengthAt format i = pure (j, (parseLength l).1) ∧ Stands format j (parseLength l).2 := by
  rw [lengthAt, h.fetch, pure_bind]
  cases l with
  | nil => exact ⟨i, rfl, h⟩
  | cons c l =>
    rw [List.headD_cons]
    by_cases hh : c = 'h'
    · subst hh
      rw [if_pos rfl, h.plusPlus, pure_bind, h.next.fetch, pure_bind]
      cases l with
      | nil => exact ⟨_, rfl, h.next⟩
      | cons d l =>
        rw [List.headD_cons]
        by_cases hdh : d = 'h'
        · subst hdh
          rw [if_pos rfl, h.next.plusPlus, pure_bind]
          exact ⟨_, rfl, h.next.next⟩
        by_cases hdl : d = 'l'
        · subst hdl
          rw [if_neg (by decide), if_pos rfl, h.next.plusPlus, pure_bind]
          exact ⟨_, rfl, h.next.next⟩
        · have hparse : parseLength ('h' :: d :: l) = (.H, d :: l) := by
            unfold parseLength
            split <;> simp_all
          rw [if_neg hdh, if_neg hdl, hparse]
          exact ⟨_, rfl, h.next⟩
    by_cases hl : c = 'l'
    · subst hl
      rw [if_neg (by decide), if_pos rfl, h.plusPlus, pure_bind]
      exact ⟨_, rfl, h.next⟩
    · have hparse : parseLength (c :: l) = (.NONE, c :: l) := by
        unfold parseLength
        split <;> simp_all
      rw [if_neg hh, if_neg hl, hparse]
      exact ⟨i, rfl, h⟩

theorem parseConversion_cons (c : Char) (l : List Char) :
    parseConversion (c :: l) = (specifier c).map fun conversion => (conversion, l) := rfl

theorem conversionAt_part (h : Stands format i l) :
    Part format (conversionAt format i) (parseConversion l) := by
  rw [conversionAt, h.fetch, pure_bind]
  cases l with
  | nil => exact Or.inl ⟨rfl, rfl⟩
  | cons c l =>
    rw [List.headD_cons, parseConversion_cons]
    cases specifier c with
    | none => exact Or.inl ⟨rfl, rfl⟩
    | some conversion =>
      refine Or.inr ⟨conversion, l, _, rfl, ?_, h.next⟩
      simp only [h.plusPlus, pure_bind]

/-! ### A scan and the parser on lists -/

/-- The numbers are values of an `int`. -/
def Fits (state : PrintfState) : Prop := state.min_width ≤ maxInt ∧ state.precision ≤ maxInt

instance (state : PrintfState) : Decidable (Fits state) := inferInstanceAs (Decidable (_ ∧ _))

def Agrees {α : Type} (format : List Char) (fits : α → Prop) (x : Scan (ℕ × α))
    (y : Option (α × List Char)) : Prop :=
  (∃ a l j, x = pure (j, a) ∧ fits a ∧ y = some (a, l) ∧ Stands format j l) ∨
    (x = throw .reject ∧ y = none) ∨
    (x = throw .overflow ∧ ∀ a l, y = some (a, l) → ¬ fits a)

theorem parsePrintfState_cons (l : List Char) : PrintfParser.parsePrintfState ('%' :: l) =
    let flags := parseFlags l { conversion_specifier := .D }
    let width := parseMinWidth flags.2
    let precision := parsePrecision width.2
    (parseVector precision.2).bind fun vector =>
      (parseConversion (parseLength vector.2).2).map fun conversion =>
        ({ flags.1 with
          min_width := width.1
          precision := precision.1
          vector_n := vector.1
          length_modifier := (parseLength vector.2).1
          conversion_specifier := conversion.1 }, conversion.2) := by
  rw [PrintfParser.parsePrintfState]
  dsimp only
  cases parseVector (parsePrecision (parseMinWidth (parseFlags l _).2).2).2 with
  | none => rfl
  | some vector =>
    dsimp only [Option.bind_some]
    cases parseConversion (parseLength vector.2).2 with
    | none => rfl
    | some conversion => rfl

theorem agrees_parsePrintfState (h : Stands format i l) :
    Agrees format Fits (parsePrintfState format i) (PrintfParser.parsePrintfState l) := by
  rw [parsePrintfState, h.fetch, pure_bind]
  cases l with
  | nil => exact Or.inr (Or.inl ⟨rfl, rfl⟩)
  | cons c l =>
    rw [List.headD_cons]
    by_cases hc : c = '%'
    · subst hc
      rw [if_neg (not_not.mpr rfl), parsePrintfState_cons]
      dsimp only
      rw [h.plusPlus, pure_bind]
      have hlen := h.next.length
      obtain ⟨j1, hflags, h1⟩ : ∃ j, flagsFrom format (format.length + 1) (i + 1)
          { conversion_specifier := .D } = pure (j, _) ∧ _ := flagsFrom_eq h.next (by omega)
      rw [hflags, pure_bind]
      dsimp only
      rcases digitsFrom_minWidth h1 with ⟨hwidth, j2, hdigits, h₂⟩ | ⟨hwidth, hdigits⟩
      · rw [hdigits, pure_bind]
        dsimp only
        rcases precisionAt_number h₂ with ⟨hprecision, j3, hdigits, h₃⟩ | ⟨hprecision, hdigits⟩
        · rw [hdigits, pure_bind]
          dsimp only
          rcases vectorAt_part h₃ with ⟨hnone, hvector⟩ | ⟨n, l4, j4, hsome, hvector, h₄⟩
          · rw [hvector, hnone]
            exact Or.inr (Or.inl ⟨rfl, rfl⟩)
          · rw [hvector, hsome, pure_bind, Option.bind_some]
            dsimp only
            obtain ⟨j5, hlength, h5⟩ := lengthAt_eq h₄
            rw [hlength, pure_bind]
            dsimp only
            rcases conversionAt_part h5 with ⟨hnone, hconv⟩ | ⟨conv, l6, j6, hsome, hconv, h6⟩
            · rw [hconv, hnone]
              exact Or.inr (Or.inl ⟨rfl, rfl⟩)
            · rw [hconv, hsome]
              exact Or.inl ⟨_, l6, j6, rfl, ⟨hwidth, hprecision⟩, rfl, h6⟩
        · rw [hdigits]
          refine Or.inr (Or.inr ⟨rfl, fun state l' hstate hfits => ?_⟩)
          obtain ⟨vector, -, hmap⟩ := Option.bind_eq_some_iff.mp hstate
          obtain ⟨conversion, -, heq⟩ := Option.map_eq_some_iff.mp hmap
          cases heq
          exact absurd hfits.2 (not_le.mpr hprecision)
      · rw [hdigits]
        refine Or.inr (Or.inr ⟨rfl, fun state l' hstate hfits => ?_⟩)
        obtain ⟨vector, -, hmap⟩ := Option.bind_eq_some_iff.mp hstate
        obtain ⟨conversion, -, heq⟩ := Option.map_eq_some_iff.mp hmap
        cases heq
        exact absurd hfits.1 (not_le.mpr hwidth)
    · rw [if_pos hc]
      refine Or.inr (Or.inl ⟨rfl, ?_⟩)
      unfold PrintfParser.parsePrintfState
      split <;> simp_all

end

section

variable {format l : List Char} {i fuel : ℕ}

theorem textFrom_eq (h : Stands format i l) (hfuel : l.length < fuel) (acc : List Char) :
    (textFrom format fuel i = throw .reject ∧ scanText l acc = none) ∨
      ∃ t rest j, l = t ++ rest ∧ textFrom format fuel i = pure j ∧ Stands format j rest ∧
        scanText l acc = some (acc ++ t, rest) := by
  induction fuel generalizing i l acc with
  | zero => exact absurd hfuel (Nat.not_lt_zero _)
  | succ fuel ih =>
    have hlen := h.length
    cases l with
    | nil =>
      rw [List.length_nil, Nat.add_zero] at hlen
      refine Or.inr ⟨[], [], i, rfl, ?_, h, by rw [List.append_nil]; rfl⟩
      rw [textFrom, if_neg (by omega)]
    | cons c l =>
      rw [List.length_cons] at hlen hfuel
      rw [textFrom, if_pos (by omega), h.fetch, pure_bind, List.headD_cons]
      by_cases hc : c = '%'
      · subst hc
        rw [if_neg (not_not.mpr rfl)]
        cases l with
        | nil =>
          rw [if_pos (by simpa using hlen)]
          exact Or.inl ⟨rfl, rfl⟩
        | cons d l =>
          rw [List.length_cons] at hlen hfuel
          rw [if_neg (by omega), h.next.fetch, pure_bind, List.headD_cons, scanText, if_pos rfl]
          by_cases hd : d = '%'
          · subst hd
            rw [if_pos rfl, if_pos rfl]
            rcases ih h.next.next (by omega) (acc ++ ['%', '%']) with hreject |
              ⟨t, rest, j, rfl, hscan, hstands, htext⟩
            · exact Or.inl hreject
            · refine Or.inr ⟨'%' :: '%' :: t, rest, j, rfl, hscan, hstands, ?_⟩
              rw [htext, List.append_assoc]
              rfl
          · rw [if_neg hd, if_neg hd]
            exact Or.inr ⟨[], _, i, rfl, rfl, h, by rw [List.append_nil]⟩
      · rw [if_pos hc, scanText_char hc]
        rcases ih h.next (by omega) (acc ++ [c]) with hreject |
          ⟨t, rest, j, rfl, hscan, hstands, htext⟩
        · exact Or.inl hreject
        · refine Or.inr ⟨c :: t, rest, j, rfl, hscan, hstands, ?_⟩
          rw [htext, List.append_assoc]
          rfl

/-- What a scan of the rest of a format gives. -/
def Slots (x : Scan (List PrintfSlot × ℕ)) (printf_fmt : List PrintfSlot) (num : ℕ)
    (y : Option (List PrintfSlot)) : Prop :=
  (∃ slots, x = pure (printf_fmt ++ slots, num + (states slots).length) ∧ y = some slots ∧
      ∀ state ∈ states slots, Fits state) ∨
    (x = throw .reject ∧ y = none) ∨
    (x = throw .overflow ∧ ∀ slots, y = some slots → ¬ ∀ state ∈ states slots, Fits state)

theorem states_append (fmt fmt' : List PrintfSlot) :
    states (fmt ++ fmt') = states fmt ++ states fmt' := by
  induction fmt with
  | nil => rfl
  | cons slot fmt ih => cases slot <;> simp [states, ih]

theorem states_flush (text : List Char) : states (flush text) = [] := by
  rw [flush]
  split <;> rfl

theorem slotsFrom_slots (hnul : '\x00' ∉ l) (h : Stands format i l) (hfuel : l.length ≤ fuel)
    (printf_fmt : List PrintfSlot) (num : ℕ) :
    Slots (slotsFrom format (fuel + 1) i printf_fmt num) printf_fmt num (parseSlots fuel l) := by
  induction fuel generalizing i l printf_fmt num with
  | zero =>
    obtain rfl : l = [] := List.length_eq_zero_iff.mp (Nat.le_zero.mp hfuel)
    refine Or.inl ⟨[], ?_, rfl, fun _ h => absurd h List.not_mem_nil⟩
    rw [slotsFrom, h.fetch, pure_bind, List.append_nil]
    rfl
  | succ fuel ih =>
    by_cases hl : l = []
    · subst hl
      refine Or.inl ⟨[], ?_, rfl, fun _ h => absurd h List.not_mem_nil⟩
      rw [slotsFrom, h.fetch, pure_bind, List.append_nil]
      rfl
    · have hhead : l.headD '\x00' ≠ '\x00' := by
        cases l with
        | nil => exact absurd rfl hl
        | cons c l => exact fun hc => hnul (hc ▸ List.mem_cons_self)
      have hlen := h.length
      rw [slotsFrom, h.fetch, pure_bind, if_neg hhead, parseSlots_succ hl]
      rcases textFrom_eq h (show l.length < format.length + 1 by omega) [] with
        ⟨hreject, hnone⟩ | ⟨t, rest, p, rfl, hscan, hp, htext⟩
      · dsimp only
        rw [hreject, hnone]
        exact Or.inr (Or.inl ⟨rfl, rfl⟩)
      · have hplen := hp.length
        rw [List.length_append] at hlen hfuel
        -- the slot of the text
        have hfmt : (if p ≠ i then
            printf_fmt ++ [PrintfSlot.string (String.ofList ((format.drop i).take (p - i)))]
            else printf_fmt) = printf_fmt ++ flush t := by
          have hpi : p - i = t.length := by omega
          rw [hpi, h.2, List.take_left' rfl, flush]
          by_cases ht : t = []
          · rw [if_neg, if_pos ht, List.append_nil]
            rw [ht, List.length_nil] at hpi hlen
            omega
          · have := List.length_pos_of_ne_nil ht
            rw [if_pos (by omega), if_neg ht]
        dsimp only
        rw [hscan, pure_bind, htext, Option.bind_some, List.nil_append, hfmt]
        by_cases hrest : rest = []
        · subst hrest
          rw [if_pos hp.nil, if_pos rfl]
          exact Or.inl ⟨flush t, by rw [states_flush]; rfl, rfl, by simp [states_flush]⟩
        · have hpne : p ≠ format.length := by
            have := List.length_pos_of_ne_nil hrest
            omega
          rw [if_neg hpne, if_neg hrest]
          dsimp only
          rcases agrees_parsePrintfState hp with ⟨state, l', rend, hparse, hfits, hsome, hr⟩ |
            ⟨hparse, hnone⟩ | ⟨hparse, hlarge⟩
          · have hstates : ∀ slots, states (flush t ++ PrintfSlot.state state :: slots) =
                state :: states slots := by
              intro slots
              rw [states_append, states_flush]
              rfl
            have hshort : l'.length ≤ fuel := by
              obtain ⟨s, rfl, -⟩ := spec_parsePrintfState hsome
              have := spell_length_pos s
              rw [List.length_append] at hfuel
              omega
            rw [hparse, hsome, Option.bind_some]
            simp only [pure_bind]
            by_cases hend : rend = format.length
            · have hl' : l' = [] := by
                have := hr.length
                exact List.length_eq_zero_iff.mp (by omega)
              rw [if_pos hend, hl']
              refine Or.inl ⟨flush t ++ [PrintfSlot.state state], ?_, ?_, ?_⟩
              · rw [hstates, List.append_assoc]
                rfl
              · cases fuel <;> rfl
              · rw [hstates]
                exact List.forall_mem_cons.mpr ⟨hfits, fun _ h => absurd h List.not_mem_nil⟩
            · rw [if_neg hend]
              have hnul' : '\x00' ∉ l' := by
                obtain ⟨s, rfl, -⟩ := spec_parsePrintfState hsome
                exact fun hmem => hnul (List.mem_append_right _ (List.mem_append_right _ hmem))
              rcases ih hnul' hr hshort (printf_fmt ++ flush t ++ [.state state]) (num + 1) with
                ⟨slots, hx, hy, hall⟩ | ⟨hx, hy⟩ | ⟨hx, hy⟩
              · refine Or.inl ⟨flush t ++ PrintfSlot.state state :: slots, ?_, ?_, ?_⟩
                · rw [hx, hstates, List.append_assoc, List.append_assoc, List.length_cons,
                    Nat.add_assoc, Nat.add_comm 1]
                  rfl
                · rw [hy]
                  rfl
                · rw [hstates]
                  exact List.forall_mem_cons.mpr ⟨hfits, hall⟩
              · rw [hy]
                exact Or.inr (Or.inl ⟨hx, rfl⟩)
              · refine Or.inr (Or.inr ⟨hx, fun slots hslots hall => ?_⟩)
                obtain ⟨slots', hslots', rfl⟩ := Option.map_eq_some_iff.mp hslots
                rw [hstates] at hall
                exact hy slots' hslots' fun st h => hall st (List.mem_cons_of_mem _ h)
          · rw [hparse, hnone]
            exact Or.inr (Or.inl ⟨rfl, rfl⟩)
          · rw [hparse]
            refine Or.inr (Or.inr ⟨rfl, fun slots hslots hall => ?_⟩)
            obtain ⟨⟨state, l'⟩, hstate, hmap⟩ := Option.bind_eq_some_iff.mp hslots
            obtain ⟨slots', -, rfl⟩ := Option.map_eq_some_iff.mp hmap
            refine hlarge state l' hstate (hall state ?_)
            rw [states_append, states_flush]
            exact List.mem_cons_self

end

/-! ### The formats that are accepted -/

section

variable {format : List Char} {items : List Item}

theorem states_slotsFrom (text : List Char) (items : List Item) :
    states (PrintfParser.slotsFrom text items) = items.filterMap fun
      | .conversion spec => some spec.state
      | _ => none := by
  induction items generalizing text with
  | nil => exact states_flush text
  | cons item items ih =>
    cases item with
    | conversion spec =>
      rw [PrintfParser.slotsFrom, states_append, states_flush]
      exact congrArg (spec.state :: ·) (ih [])
    | char c hc => exact ih _
    | percent => exact ih _

theorem fits_slotsFrom : (∀ state ∈ states (PrintfParser.slotsFrom [] items), Fits state) ↔
    ∀ spec, .conversion spec ∈ items → Fits spec.state := by
  rw [states_slotsFrom]
  constructor
  · exact fun h spec hspec => h _ (List.mem_filterMap.mpr ⟨_, hspec, rfl⟩)
  · intro h state hstate
    obtain ⟨item, hitem, heq⟩ := List.mem_filterMap.mp hstate
    cases item with
    | conversion spec =>
      cases heq
      exact h spec hitem
    | _ => cases heq

theorem length_states (items : List Item) :
    (states (PrintfParser.slotsFrom [] items)).length = items.countP Item.isConversion := by
  rw [states_slotsFrom]
  induction items with
  | nil => rfl
  | cons item items ih =>
    cases item <;> simp [List.countP_cons, Item.isConversion, ih]

theorem parserPrintfFmt_slots (hnul : '\x00' ∉ format) :
    Slots (parserPrintfFmt format) [] 0 (PrintfParser.parserPrintfFmt format) :=
  slotsFrom_slots hnul ⟨Nat.zero_le _, rfl⟩ le_rfl [] 0

end

/-- A format is accepted exactly if it is a sequence of items whose numbers fit in an `int`; a
refusal is the only other way in which the parser ends. -/
theorem parser_printf_fmt_exact {format : List Char} (hnul : '\x00' ∉ format) :
    (∀ slots num, parserPrintfFmt format = .ok (slots, num) ↔
        ∃ items : List Item, (∀ spec, .conversion spec ∈ items → Fits spec.state) ∧
          format = spellAll items ∧ slots = PrintfParser.slotsFrom [] items ∧
            num = items.countP Item.isConversion) ∧
      ∀ e, parserPrintfFmt format = .error e →
        e = .reject ∧ (∀ items, format ≠ spellAll items) ∨
          e = .overflow ∧ ∀ items, format = spellAll items →
            ∃ spec, .conversion spec ∈ items ∧ ¬ Fits spec.state := by
  have hlist : ∀ items, format = spellAll items →
      PrintfParser.parserPrintfFmt format = some (PrintfParser.slotsFrom [] items) :=
    fun items h => parserPrintfFmt_iff.mpr ⟨items, h, rfl⟩
  rcases parserPrintfFmt_slots hnul with ⟨slots0, hx, hy, hall⟩ | ⟨hx, hy⟩ | ⟨hx, hy⟩
  · refine ⟨fun slots num => ?_, fun e he => ?_⟩
    · rw [hx, List.nil_append, Nat.zero_add]
      constructor
      · intro h
        cases h
        obtain ⟨items, heq, rfl⟩ := parserPrintfFmt_iff.mp hy
        exact ⟨items, fits_slotsFrom.mp hall, heq, rfl, length_states items⟩
      · rintro ⟨items, -, heq, rfl, rfl⟩
        obtain rfl := Option.some.inj (hy.symm.trans (hlist items heq))
        rw [length_states]
        rfl
    · rw [hx] at he
      cases he
  · refine ⟨fun slots num => ?_, fun e he => ?_⟩
    · rw [hx]
      refine iff_of_false (fun h => by cases h) ?_
      rintro ⟨items, -, heq, -⟩
      cases hy.symm.trans (hlist items heq)
    · rw [hx] at he
      cases he
      refine Or.inl ⟨rfl, fun items heq => ?_⟩
      cases hy.symm.trans (hlist items heq)
  · refine ⟨fun slots num => ?_, fun e he => ?_⟩
    · rw [hx]
      refine iff_of_false (fun h => by cases h) ?_
      rintro ⟨items, hfits, heq, -⟩
      exact hy _ (hlist items heq) (fits_slotsFrom.mpr hfits)
    · rw [hx] at he
      cases he
      refine Or.inr ⟨rfl, fun items heq => ?_⟩
      by_contra hcon
      push Not at hcon
      exact hy _ (hlist items heq) (fits_slotsFrom.mpr hcon)

theorem parser_printf_fmt_exact_width : parserPrintfFmt ['%', '0', '5', 'd'] =
    .ok ([.state (Spec.state ⟨[], [0, 5], none, none, .NONE, .D⟩)], 1) :=
  ((parser_printf_fmt_exact (by decide)).1 _ _).mpr
    ⟨[.conversion ⟨[], [0, 5], none, none, .NONE, .D⟩],
      fun spec h => by
        obtain rfl : spec = ⟨[], [0, 5], none, none, .NONE, .D⟩ := by simpa using h
        decide,
      by decide, by decide, by decide⟩

/-- The order of the flags is not recorded. -/
theorem flags_lost : parserPrintfFmt ['%', '+', '-', 'd'] = parserPrintfFmt ['%', '-', '+', 'd'] ∧
    (∃ r, parserPrintfFmt ['%', '+', '-', 'd'] = .ok r) ∧
      ['%', '+', '-', 'd'] ≠ ['%', '-', '+', 'd'] :=
  ⟨by decide, ⟨_, rfl⟩, by decide⟩

end Scanner

end PrintfParser

end Llvm
