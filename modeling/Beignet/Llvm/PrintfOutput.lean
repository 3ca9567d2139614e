/-
What `outputPrintf` prints for one record (`ir/printf.cpp`), against the meaning of the format.

The host's `printf` is a parameter: the characters that it prints for one conversion without a
vector and one value.  What is used of it is that it looks at what a conversion says and not at
how that is spelled.

* `spell_rebuilt` — the text that is rebuilt for a conversion says the same as the conversion;
* `printed_printOutOneStatement` — the characters of a statement;
* **`output_eq_meaning_iff`** — they are the meaning of the format exactly where no percent sign
  is doubled.
-/
import Beignet.Llvm.PrintfGrammar

namespace Llvm

namespace PrintfParser

open Ir.Printf

/-! ### The meaning of a format -/

/-- One value of an argument list: the bytes of a number, or a string. -/
inductive Arg where
  | data (size bits : ℕ)
  | str (s : String)

/-- What a conversion says to the `printf` of C.  A sign takes precedence over a space and the
left end over zeros, and `i` is `d`. -/
structure Directive where
  left : Bool
  sign : Bool
  space : Bool
  alternative : Bool
  zero : Bool
  width : Option ℤ
  precision : Option ℤ
  length : LengthModifier
  conversion : Conversion

namespace Spec

def directive (s : Spec) : Directive where
  left := .left ∈ s.allFlags
  sign := .sign ∈ s.allFlags
  space := .space ∈ s.allFlags ∧ .sign ∉ s.allFlags
  alternative := .alternative ∈ s.allFlags
  zero := .zero ∈ s.allFlags ∧ .left ∉ s.allFlags
  width := if s.digits = [] then none else some (number 0 s.digits)
  precision := s.precision.map (number 0)
  length := s.length
  conversion := if s.conversion = .I then .D else s.conversion

/-- The conversion of one element: C has neither the vectors nor the length `hl`. -/
def scalar (s : Spec) : Spec :=
  { s with vector := none, length := if s.length = .HL then .NONE else s.length }

end Spec

/-- A `printf` that is told nothing by the spelling of a conversion but its directive. -/
def Standard (host : List Char → Arg → List Char) : Prop :=
  ∀ s t : Spec, s.vector = none → t.vector = none → s.directive = t.directive →
    host s.spell = host t.spell

/-- The characters of a format for the values of its conversions, with these characters for a
doubled percent sign.  The elements of a vector are separated by commas. -/
def render (percent : List Char) (host : List Char → Arg → List Char) :
    List Item → List (List Arg) → List Char
  | [], _ => []
  | .char c _ :: items, args => c :: render percent host items args
  | .percent :: items, args => percent ++ render percent host items args
  | .conversion _ :: items, [] => render percent host items []
  | .conversion s :: items, arg :: args =>
    [','].intercalate (arg.map (host s.scalar.spell)) ++ render percent host items args

/-- What a format means: a doubled percent sign is one. -/
def meaning : (List Char → Arg → List Char) → List Item → List (List Arg) → List Char :=
  render ['%']

/-! ### The characters that are printed -/

/-- The value of `size` bytes at an address, where a dword is 4. -/
def dataAt (mem : Memory) (addr size : ℕ) : ℕ :=
  if size = 8 then mem addr + 2 ^ 32 * mem (addr + 4) else mem addr % 2 ^ (8 * size)

section

variable (host : List Char → Arg → List Char) (mem : Memory)

/-- The characters of one call: a text is printed as it stands. -/
def chars : Output → List Char
  | .text s => s.toList
  | .str fmt s => host fmt.toList (.str s)
  | .data fmt read =>
    host fmt.toList (.data read.size (dataAt mem read.addr read.size))

def printed (out : List Output) : List Char := out.flatMap (chars host mem)

/-- The values that a conversion has in a record. -/
def elementsAt (addr : ℕ) (state : PrintfState) : List Arg :=
  (List.range state.vecNum).map fun i =>
    .data state.dataSize (dataAt mem (addr + state.dataSize * i) state.dataSize)

/-- The record at an address has these values, one after another.  A string is in the slot and
not in the record. -/
inductive Holds : ℕ → List PrintfSlot → List (List Arg) → Prop
  | nil (addr : ℕ) : Holds addr [] []
  | string {addr : ℕ} {slots : List PrintfSlot} {args : List (List Arg)} (text : String)
      (h : Holds addr slots args) : Holds addr (.string text :: slots) args
  | str {addr : ℕ} {slots : List PrintfSlot} {args : List (List Arg)} {state : PrintfState}
      (hkind : state.conversion_specifier.kind = .str) (hvector : state.vector_n = 0)
      (h : Holds addr slots args) : Holds addr (.state state :: slots) ([.str state.str] :: args)
  | data {addr : ℕ} {slots : List PrintfSlot} {args : List (List Arg)} {state : PrintfState}
      (hkind : state.conversion_specifier.kind ≠ .str)
      (h : Holds (addr + state.dataSize * state.vecNum) slots args) :
      Holds addr (.state state :: slots) (elementsAt mem addr state :: args)

end

/-! ### Decimal numbers -/

@[simp] theorem number_nil (n : ℤ) : number n [] = n := rfl

@[simp] theorem number_cons (n : ℤ) (d : Digit) (ds : List Digit) :
    number n (d :: ds) = number (n * 10 + d) ds := rfl

theorem number_nonneg {n : ℤ} (hn : 0 ≤ n) (ds : List Digit) : 0 ≤ number n ds := by
  induction ds generalizing n with
  | nil => exact hn
  | cons d ds ih => exact ih (show 0 ≤ n * 10 + ((d : ℕ) : ℤ) by omega)

theorem number_pos {n : ℤ} (hn : 0 < n) (ds : List Digit) : 0 < number n ds := by
  induction ds generalizing n with
  | nil => exact hn
  | cons d ds ih => exact ih (show 0 < n * 10 + ((d : ℕ) : ℤ) by omega)

theorem number_append (n : ℤ) (ds : List Digit) (d : Digit) :
    number n (ds ++ [d]) = number n ds * 10 + d := by
  induction ds generalizing n with
  | nil => rfl
  | cons e ds ih => exact ih _

/-- A number is printed in digits, the first of which is zero for zero only. -/
theorem exists_digits (n : ℕ) : ∃ ds : List Digit, (Nat.toDigits 10 n) = ds.map Digit.char ∧
    number 0 ds = n ∧ ds ≠ [] ∧ (n ≠ 0 → ∀ d ∈ ds.head?, d ≠ 0) := by
  induction n using Nat.strong_induction_on with
  | _ n ih =>
    have hdigit : ∀ d : Digit, Nat.digitChar d = d.char := by decide
    by_cases hn : n < 10
    · refine ⟨[⟨n, hn⟩], ?_, ?_, List.cons_ne_nil _ _, ?_⟩
      · rw [Nat.toDigits_of_lt_base hn, List.map_singleton, ← hdigit]
      · rw [number_cons, zero_mul, zero_add, number_nil]
      · intro h d hd
        obtain rfl : (⟨n, hn⟩ : Digit) = d := by simpa using hd
        exact fun hzero => h (congrArg Fin.val hzero)
    · have hlast : n % 10 < 10 := Nat.mod_lt n (by omega)
      obtain ⟨ds, hds, hnumber, hne, hhead⟩ := ih (n / 10) (by omega)
      refine ⟨ds ++ [⟨n % 10, hlast⟩], ?_, ?_, by simp, ?_⟩
      · rw [Nat.toDigits_of_base_le (by omega) (by omega), hds, List.map_append,
          List.map_singleton, ← hdigit]
      · rw [number_append, hnumber]
        show ((n / 10 : ℕ) : ℤ) * 10 + ((n % 10 : ℕ) : ℤ) = n
        omega
      · intro _
        rw [List.head?_append_of_ne_nil _ hne]
        exact hhead (by omega)

theorem toList_toString {n : ℤ} (hn : 0 ≤ n) : ∃ ds : List Digit,
    (toString n).toList = ds.map Digit.char ∧ number 0 ds = n ∧ ds ≠ [] ∧
      (n ≠ 0 → ∀ d ∈ ds.head?, d ≠ 0) := by
  obtain ⟨k, rfl⟩ := Int.eq_ofNat_of_zero_le hn
  obtain ⟨ds, hds, hnumber, hne, hhead⟩ := exists_digits k
  refine ⟨ds, ?_, hnumber, hne, fun h => hhead (by omega)⟩
  rw [← hds, show toString (k : ℤ) = toString k from rfl, Nat.toString_eq_ofList_toDigits,
    String.toList_ofList]

/-- A number that starts with a digit above zero is not zero. -/
theorem number_ne_zero {d : Digit} (hd : d ≠ 0) (ds : List Digit) : number 0 (d :: ds) ≠ 0 := by
  have hnat : (d : ℕ) ≠ 0 := fun h => hd (Fin.ext h)
  exact (number_pos (show (0 : ℤ) < 0 * 10 + ((d : ℕ) : ℤ) by omega) ds).ne'

/-! ### The rebuilt conversion -/

namespace Spec

theorem head_digits_ne_zero (s : Spec) : ∀ d ∈ s.digits.head?, d ≠ 0 := by
  intro d hd
  have hhead := List.head?_dropWhile_not (fun d : Digit => decide (d = 0)) s.width
  rw [show s.width.dropWhile (fun d => decide (d = 0)) = s.digits from rfl,
    Option.mem_def.mp hd] at hhead
  simpa using hhead

/-- A width that starts with no zero is its own digits. -/
theorem digits_of_head {s : Spec} (h : ∀ d ∈ s.width.head?, d ≠ 0) :
    s.allFlags = s.flags ∧ s.digits = s.width := by
  rw [allFlags, digits]
  cases hwidth : s.width with
  | nil => exact ⟨List.append_nil _, rfl⟩
  | cons d ds =>
    have hd : d ≠ 0 := h d (by rw [hwidth]; rfl)
    rw [List.takeWhile_cons_of_neg (by simpa using hd),
      List.dropWhile_cons_of_neg (by simpa using hd)]
    exact ⟨List.append_nil _, rfl⟩

/-- The flags that `generatePrintfFmtString` writes. -/
def rebuiltFlags (s : Spec) : List Flag :=
  (if s.state.left_justified then [Flag.left] else []) ++
    (if s.state.sign_symbol = 1 then [Flag.sign] else if s.state.sign_symbol = 2 then [Flag.space]
      else []) ++
    (if s.state.alter_form then [Flag.alternative] else []) ++
    (if s.state.zero_padding then [Flag.zero] else [])

theorem mem_rebuiltFlags (s : Spec) (f : Flag) : f ∈ s.rebuiltFlags ↔
    match f with
    | .left => .left ∈ s.allFlags
    | .sign => .sign ∈ s.allFlags
    | .space => .space ∈ s.allFlags ∧ .sign ∉ s.allFlags
    | .alternative => .alternative ∈ s.allFlags
    | .zero => .zero ∈ s.allFlags.takeWhile (· ≠ .left) := by
  unfold rebuiltFlags state
  by_cases hsign : .sign ∈ s.allFlags <;> by_cases hspace : .space ∈ s.allFlags <;>
    cases f <;> simp [hsign, hspace]

/-- The zeros are recorded exactly where they are not behind a left end. -/
theorem zero_mem_takeWhile {flags : List Flag} (h : .left ∉ flags) :
    .zero ∈ flags.takeWhile (· ≠ .left) ↔ .zero ∈ flags := by
  rw [List.takeWhile_eq_self_iff.mpr]
  intro f hf
  simpa using fun hleft : f = .left => h (hleft ▸ hf)

end Spec

theorem toList_letter (c : Conversion) :
    c.letter.toList = [conversionChar (if c = .I then .D else c)] := by
  cases c <;> decide

/-- What is rebuilt of a conversion is the spelling of one that says the same. -/
theorem spell_rebuilt (s : Spec) : ∃ t : Spec, t.vector = none ∧
    t.directive = s.scalar.directive ∧
      (generatePrintfFmtString s.state ++ s.conversion.letter).toList = t.spell := by
  -- the digits of the two numbers
  obtain ⟨width, hwidth, hwidthNumber, hwidthHead⟩ : ∃ width : List Digit,
      (if s.state.min_width ≥ 0 then toString s.state.min_width else "").toList =
        width.map Digit.char ∧
      (if width = [] then none else some (number 0 width)) =
        (if s.digits = [] then none else some (number 0 s.digits)) ∧
      ∀ d ∈ width.head?, d ≠ 0 := by
    cases hdigits : s.digits with
    | nil =>
      have hmin : s.state.min_width = -1 := if_pos hdigits
      exact ⟨[], by rw [hmin]; rfl, rfl, by simp⟩
    | cons d ds =>
      have hmin : s.state.min_width = number 0 (d :: ds) := by
        rw [← hdigits]
        exact if_neg (by rw [hdigits]; exact List.cons_ne_nil _ _)
      have hd : d ≠ 0 := s.head_digits_ne_zero d (by rw [hdigits]; rfl)
      have hnonneg := number_nonneg le_rfl (d :: ds)
      obtain ⟨width, hlist, hnumber, hne, hhead⟩ := toList_toString hnonneg
      refine ⟨width, ?_, ?_, hhead (number_ne_zero hd ds)⟩
      · rw [hmin, if_pos hnonneg, hlist]
      · rw [if_neg hne, if_neg (List.cons_ne_nil _ _), hnumber]
  obtain ⟨precision, hprecision, hprecisionNumber⟩ : ∃ precision : Option (List Digit),
      (if s.state.precision ≥ 0 then "." ++ toString s.state.precision else "").toList =
        precision.elim [] (fun ds => '.' :: ds.map Digit.char) ∧
      precision.map (number 0) = s.precision.map (number 0) := by
    cases hp : s.precision with
    | none =>
      have hmin : s.state.precision = -1 := by rw [Spec.state, hp]; rfl
      exact ⟨none, by rw [hmin]; rfl, rfl⟩
    | some ds =>
      have hmin : s.state.precision = number 0 ds := by rw [Spec.state, hp]; rfl
      have hnonneg := number_nonneg le_rfl ds
      obtain ⟨digits, hlist, hnumber, -, -⟩ := toList_toString hnonneg
      refine ⟨some digits, ?_, congrArg some hnumber⟩
      rw [hmin, if_pos hnonneg, String.toList_append, hlist]
      rfl
  refine ⟨⟨s.rebuiltFlags, width, precision, none, s.scalar.length,
    if s.conversion = .I then .D else s.conversion⟩, rfl, ?_, ?_⟩
  · obtain ⟨hflags, hdigits⟩ := Spec.digits_of_head (s := ⟨s.rebuiltFlags, width, precision, none,
      s.scalar.length, if s.conversion = .I then .D else s.conversion⟩) hwidthHead
    have hconversion : (if (if s.conversion = .I then .D else s.conversion) = .I then .D
        else if s.conversion = .I then .D else s.conversion) =
          (if s.conversion = .I then .D else s.conversion) := by
      cases s.conversion <;> rfl
    rw [Spec.directive, hflags, hdigits, hwidthNumber, hprecisionNumber, hconversion]
    simp only [Spec.mem_rebuiltFlags]
    have hspace : (.space ∈ s.allFlags ∧ .sign ∉ s.allFlags) ∧ .sign ∉ s.allFlags ↔
        .space ∈ s.allFlags ∧ .sign ∉ s.allFlags := by tauto
    have hzero : .zero ∈ s.allFlags.takeWhile (· ≠ .left) ∧ .left ∉ s.allFlags ↔
        .zero ∈ s.allFlags ∧ .left ∉ s.allFlags :=
      and_congr_left Spec.zero_mem_takeWhile
    simp only [hspace, hzero]
    rfl
  · have hflags : ("%" ++ (if s.state.left_justified then "-" else "")
        ++ (if s.state.sign_symbol = 1 then "+" else if s.state.sign_symbol = 2 then " " else "")
        ++ (if s.state.alter_form then "#" else "")
        ++ (if s.state.zero_padding then "0" else "")).toList =
          '%' :: s.rebuiltFlags.map Flag.char := by
      unfold Spec.rebuiltFlags
      split_ifs <;> rfl
    rw [generatePrintfFmtString, String.toList_append, String.toList_append, String.toList_append,
      String.toList_append, hflags, hwidth, hprecision, toList_letter]
    simp only [Spec.spell, Spec.spellEnd, Spec.scalar, Option.elim_none, List.cons_append,
      List.append_assoc, List.nil_append]
    rw [show s.state.length_modifier = s.length from rfl]
    cases s.length <;> rfl

/-! ### What is printed -/

section

variable {host : List Char → Arg → List Char} {mem : Memory} {slots slots' : List PrintfSlot}
  {args : List (List Arg)} {items : List Item} {addr : ℕ}

theorem printed_append (out out' : List Output) :
    printed host mem (out ++ out') = printed host mem out ++ printed host mem out' :=
  List.flatMap_append

theorem intercalate_concat {sep : List Char} {l : List (List Char)} (hl : l ≠ [])
    (x : List Char) : sep.intercalate (l ++ [x]) = sep.intercalate l ++ (sep ++ x) := by
  induction l with
  | nil => exact absurd rfl hl
  | cons y l ih =>
    cases l with
    | nil => simp
    | cons z l =>
      have hih := ih (List.cons_ne_nil z l)
      rw [List.cons_append] at hih
      rw [List.cons_append, List.cons_append, List.intercalate_cons_cons, hih,
        List.intercalate_cons_cons]
      simp only [List.append_assoc]

/-- The rounds over the elements of a number.  The letter is there from the first one on. -/
theorem foldl_printElement_data {state : PrintfState}
    (hkind : state.conversion_specifier.kind ≠ .str) (k : ℕ) (h : Printer)
    (hstr : h.pf_str = generatePrintfFmtString state) (n : ℕ) :
    let h' := (List.range n).foldl (printElement k state) h
    let text := generatePrintfFmtString state ++ state.conversion_specifier.letter
    (0 < n → h'.pf_str = text) ∧ h'.log.content = h.log.content + state.dataSize * n ∧
      printed host mem h'.out = printed host mem h.out ++
        [','].intercalate ((List.range n).map fun i => host text.toList (.data state.dataSize
          (dataAt mem (h.log.content + state.dataSize * i) state.dataSize))) := by
  induction n with
  | zero => exact ⟨fun hn => absurd hn (lt_irrefl 0), rfl, (List.append_nil _).symm⟩
  | succ n ih =>
    obtain ⟨ihStr, ihContent, ihOut⟩ := ih
    dsimp only at ihStr ihContent ihOut ⊢
    rw [List.range_succ, List.foldl_append, List.foldl_cons, List.foldl_nil, List.map_append,
      List.map_singleton]
    set h' := (List.range n).foldl (printElement k state) h with hh'
    rw [printElement, if_neg hkind]
    dsimp only
    have htext : (if n = 0 then h'.pf_str ++ state.conversion_specifier.letter else h'.pf_str) =
        generatePrintfFmtString state ++ state.conversion_specifier.letter := by
      rcases Nat.eq_zero_or_pos n with rfl | hn
      · rw [if_pos rfl, ← hstr]
        rfl
      · rw [if_neg hn.ne', ihStr hn]
    rw [htext]
    refine ⟨fun _ => rfl, ?_, ?_⟩
    · show h'.log.content + state.dataSize = _
      rw [ihContent]
      ring
    · rw [printed_append]
      rcases Nat.eq_zero_or_pos n with rfl | hn
      · rw [if_pos rfl, ihOut, ihContent]
        simp [printed, chars]
      · have hne : (List.range n).map (fun i => host (generatePrintfFmtString state ++
            state.conversion_specifier.letter).toList (.data state.dataSize (dataAt mem
              (h.log.content + state.dataSize * i) state.dataSize))) ≠ [] := by
          simpa using hn.ne'
        rw [if_neg hn.ne', printed_append, ihOut, ihContent, intercalate_concat hne,
          List.append_assoc, List.append_assoc]
        simp [printed, chars]

theorem printSlot_data (hstd : Standard host) {s : Spec} {state : PrintfState}
    (hrec : Records s.state state) (hkind : state.conversion_specifier.kind ≠ .str) (k : ℕ)
    (h : Printer) :
    (printSlot (k, h) (.state state)).2.log.content =
        h.log.content + state.dataSize * state.vecNum ∧
      printed host mem (printSlot (k, h) (.state state)).2.out = printed host mem h.out ++
        [','].intercalate ((elementsAt mem h.log.content state).map (host s.scalar.spell)) := by
  obtain ⟨-, hcontent, hout⟩ := @foldl_printElement_data host mem state hkind k
    { h with pf_str := generatePrintfFmtString state } rfl state.vecNum
  refine ⟨hcontent, hout.trans ?_⟩
  rw [elementsAt, List.map_map]
  obtain ⟨text, rfl⟩ := hrec
  obtain ⟨t, hvector, hdirective, hspell⟩ := spell_rebuilt s
  have hhost : host (generatePrintfFmtString s.state ++ s.conversion.letter).toList =
      host s.scalar.spell := by
    rw [hspell]
    exact hstd t s.scalar hvector rfl hdirective
  exact congrArg (fun f => printed host mem h.out ++
    [','].intercalate ((List.range s.state.vecNum).map fun i => f (.data s.state.dataSize
      (dataAt mem (h.log.content + s.state.dataSize * i) s.state.dataSize)))) hhost

theorem printSlot_str (hstd : Standard host) {s : Spec} {state : PrintfState}
    (hrec : Records s.state state) (hkind : state.conversion_specifier.kind = .str)
    (hvector : state.vector_n = 0) (k : ℕ) (h : Printer) :
    (printSlot (k, h) (.state state)).2.log.content = h.log.content ∧
      printed host mem (printSlot (k, h) (.state state)).2.out =
        printed host mem h.out ++ host s.scalar.spell (.str state.str) := by
  have hone : state.vecNum = 1 := by rw [PrintfState.vecNum, hvector]; rfl
  have hletter : state.conversion_specifier.letter = "s" := by
    cases hc : state.conversion_specifier <;>
      simp [hc, Conversion.kind, Conversion.letter] at hkind ⊢
  obtain ⟨t, ht, hdirective, hspell⟩ := spell_rebuilt s
  have hhost : host (generatePrintfFmtString state ++ "s").toList = host s.scalar.spell := by
    rw [← hletter]
    obtain ⟨text, rfl⟩ := hrec
    exact (congrArg host hspell).trans (hstd t s.scalar ht rfl hdirective)
  rw [printSlot, hone, List.range_one, List.foldl_cons, List.foldl_nil, printElement, if_pos hkind]
  refine ⟨rfl, ?_⟩
  dsimp only
  rw [if_pos rfl, printed_append, ← hhost]
  simp [printed, chars]

/-- A slot and the slot that the front end leaves, which has the string of a `%s`. -/
inductive Recorded : PrintfSlot → PrintfSlot → Prop
  | string (text : String) : Recorded (.string text) (.string text)
  | state {state state' : PrintfState} (h : Records state state') :
      Recorded (.state state) (.state state')

theorem convertArgs_recorded {B : Builder} {vals vals' : List Value}
    (h : convertArgs B slots vals = some (slots', vals')) :
    List.Forall₂ Recorded slots slots' := by
  induction slots generalizing slots' vals vals' with
  | nil =>
    cases h
    exact .nil
  | cons slot slots ih =>
    cases slot with
    | string text =>
      obtain ⟨⟨rest, vals1⟩, hrest, heq⟩ := Option.map_eq_some_iff.mp h
      cases heq
      exact .cons (.string text) (ih hrest)
    | state state =>
      cases vals with
      | nil => cases h
      | cons val vals =>
        rw [convertArgs] at h
        cases hparam : generateOneParameterInst B state val with
        | none =>
          rw [hparam] at h
          cases h
        | some p =>
          rw [hparam] at h
          obtain ⟨⟨rest, vals1⟩, hrest, heq⟩ := Option.map_eq_some_iff.mp h
          cases heq
          exact .cons (.state (generateOneParameterInst_passes hparam).1) (ih hrest)

theorem forall₂_flush {text : List Char} {rest : List PrintfSlot}
    (h : List.Forall₂ Recorded (flush text ++ rest) slots) :
    ∃ slots', slots = flush text ++ slots' ∧ List.Forall₂ Recorded rest slots' := by
  unfold flush at h ⊢
  split at h
  · next htext => exact ⟨slots, by rw [if_pos htext]; rfl, h⟩
  · next htext =>
    cases h with
    | cons hslot hrest =>
      cases hslot
      exact ⟨_, by rw [if_neg htext]; rfl, hrest⟩

theorem holds_flush {text : List Char} (h : Holds mem addr (flush text ++ slots) args) :
    Holds mem addr slots args := by
  unfold flush at h
  split at h
  · exact h
  · cases h with
    | string _ h => exact h

theorem foldl_flush (text : List Char) (k : ℕ) (h : Printer) :
    ∃ h', (flush text).foldl printSlot (k, h) = (k, h') ∧ h'.log = h.log ∧
      printed host mem h'.out = printed host mem h.out ++ text := by
  unfold flush
  split
  · next htext => exact ⟨h, rfl, rfl, by rw [htext, List.append_nil]⟩
  · refine ⟨_, rfl, rfl, ?_⟩
    rw [printed_append]
    simp [printed, chars]

/-- The characters of the slots behind a text: a doubled percent sign is printed twice. -/
theorem printed_foldl (hstd : Standard host) {text : List Char}
    (hslots : List.Forall₂ Recorded (slotsFrom text items) slots)
    (hholds : Holds mem addr slots args) (k : ℕ) (h : Printer) (haddr : h.log.content = addr) :
    printed host mem (slots.foldl printSlot (k, h)).2.out =
      printed host mem h.out ++ (text ++ render ['%', '%'] host items args) := by
  induction items generalizing text slots args addr k h with
  | nil =>
    rw [slotsFrom, ← List.append_nil (flush text)] at hslots
    obtain ⟨slots', rfl, hrest⟩ := forall₂_flush hslots
    cases hrest
    obtain ⟨h', heq, -, hout⟩ := @foldl_flush host mem text k h
    rw [List.append_nil, heq, hout, render, List.append_nil]
  | cons item items ih =>
    cases item with
    | char c hc =>
      rw [ih hslots hholds k h haddr, render, List.append_assoc]
      rfl
    | percent =>
      rw [ih hslots hholds k h haddr, render, List.append_assoc]
      rfl
    | conversion s =>
      obtain ⟨slots', rfl, hrest⟩ := forall₂_flush hslots
      replace hholds := holds_flush hholds
      obtain ⟨h', heq, hlog, hout⟩ := @foldl_flush host mem text k h
      rw [List.foldl_append, heq]
      cases hrest with
      | cons hslot hrest =>
        cases hslot with
        | state hrec =>
          rw [List.foldl_cons]
          rw [← hlog] at haddr
          cases hholds with
          | str hkind hvector hholds =>
            obtain ⟨hcontent, hprinted⟩ :=
              @printSlot_str host mem hstd s _ hrec hkind hvector k h'
            rw [ih hrest hholds _ _ (hcontent.trans haddr), hprinted, hout, render]
            simp only [List.nil_append, List.append_assoc, List.map_singleton,
              List.intercalate_singleton]
          | data hkind hholds =>
            obtain ⟨hcontent, hprinted⟩ := @printSlot_data host mem hstd s _ hrec hkind k h'
            rw [ih hrest hholds _ _ (by rw [hcontent, haddr]), hprinted, hout, render, haddr]
            simp only [List.nil_append, List.append_assoc]

/-- The characters of a statement. -/
theorem printed_printOutOneStatement (hstd : Standard host)
    (hslots : List.Forall₂ Recorded (slotsFrom [] items) slots) (log : PrintfLog)
    (hholds : Holds mem log.content slots args) :
    printed host mem (printOutOneStatement slots log).out =
      render ['%', '%'] host items args :=
  printed_foldl hstd hslots hholds 0 ⟨"", log, []⟩ rfl

end

/-! ### The percent sign -/

section

variable {host : List Char → Arg → List Char} {mem : Memory}

theorem length_render (items : List Item) (args : List (List Arg)) :
    (render ['%', '%'] host items args).length =
      (meaning host items args).length + items.count .percent := by
  induction items generalizing args with
  | nil => rfl
  | cons item items ih =>
    cases item with
    | char c hc =>
      have hmeaning : meaning host (.char c hc :: items) args = c :: meaning host items args := rfl
      rw [hmeaning, List.count_cons_of_ne (by simp), render, List.length_cons, List.length_cons, ih]
      exact Nat.add_right_comm _ _ _
    | percent =>
      have hmeaning : meaning host (.percent :: items) args = '%' :: meaning host items args := rfl
      rw [hmeaning, List.count_cons_self, render, List.length_append, List.length_cons,
        List.length_cons, List.length_cons, List.length_nil, ih]
      omega
    | conversion s =>
      rw [List.count_cons_of_ne (by simp)]
      cases args with
      | nil => exact ih []
      | cons arg args =>
        have hmeaning : meaning host (.conversion s :: items) (arg :: args) =
            [','].intercalate (arg.map (host s.scalar.spell)) ++ meaning host items args := rfl
        rw [hmeaning, render, List.length_append, List.length_append, ih]
        exact (Nat.add_assoc _ _ _).symm

/-- Without a doubled percent sign it does not matter what is printed for one. -/
theorem render_of_notMem {items : List Item} (h : .percent ∉ items) (percent : List Char)
    (args : List (List Arg)) : render percent host items args = meaning host items args := by
  induction items generalizing args with
  | nil => rfl
  | cons item items ih =>
    have hih := ih fun hmem => h (List.mem_cons_of_mem _ hmem)
    cases item with
    | char c hc => exact congrArg (c :: ·) (hih args)
    | percent => exact absurd List.mem_cons_self h
    | conversion s =>
      cases args with
      | nil => exact hih []
      | cons arg args => exact congrArg (_ ++ ·) (hih args)

theorem render_eq_meaning_iff (items : List Item) (args : List (List Arg)) :
    render ['%', '%'] host items args = meaning host items args ↔ .percent ∉ items := by
  refine ⟨fun h hmem => ?_, fun h => render_of_notMem h _ args⟩
  have hlength := @length_render host items args
  have hpos := List.count_pos_iff.mpr hmem
  rw [h] at hlength
  omega

end

/-! ### A host -/

/-- What is recorded of a conversion gives its directive. -/
def Directive.ofState (state : PrintfState) : Directive where
  left := state.left_justified
  sign := state.sign_symbol = 1
  space := state.sign_symbol = 2
  alternative := state.alter_form
  zero := state.zero_padding ∧ ¬ state.left_justified
  width := if state.min_width < 0 then none else some state.min_width
  precision := if state.precision < 0 then none else some state.precision
  length := state.length_modifier
  conversion :=
    if state.conversion_specifier = .I then .D else state.conversion_specifier

theorem ofState_state (s : Spec) : Directive.ofState s.state = s.directive := by
  have hsign : (if .sign ∈ s.allFlags then 1 else if .space ∈ s.allFlags then 2 else 0) = 1 ↔
      .sign ∈ s.allFlags := by split_ifs <;> simp [*]
  have hspace : (if .sign ∈ s.allFlags then 1 else if .space ∈ s.allFlags then 2 else 0) = 2 ↔
      .space ∈ s.allFlags ∧ .sign ∉ s.allFlags := by split_ifs <;> simp [*]
  have hzero : .zero ∈ s.allFlags.takeWhile (· ≠ .left) ∧ .left ∉ s.allFlags ↔
      .zero ∈ s.allFlags ∧ .left ∉ s.allFlags := and_congr_left Spec.zero_mem_takeWhile
  have hwidth : (if (if s.digits = [] then -1 else number 0 s.digits) < 0 then none
      else some (if s.digits = [] then -1 else number 0 s.digits)) =
        if s.digits = [] then none else some (number 0 s.digits) := by
    have := number_nonneg le_rfl s.digits
    split_ifs <;> first | rfl | omega
  have hprecision : (if s.precision.elim (-1) (number 0) < 0 then none
      else some (s.precision.elim (-1) (number 0))) = s.precision.map (number 0) := by
    cases s.precision with
    | none => rfl
    | some ds => exact if_neg (not_lt.mpr (number_nonneg le_rfl ds))
  rw [Directive.ofState, Spec.directive, Spec.state]
  simp only [hsign, hspace, decide_eq_true_eq, hzero, hwidth, hprecision]

/-- A `printf` of signed integers and strings; other conversions print nothing here. -/
def Directive.print (d : Directive) (arg : Arg) : List Char :=
  let pad (text : List Char) : List Char :=
    List.replicate ((d.width.getD 0).toNat - text.length) ' '
  match d.conversion, arg with
  | .D, .data size bits =>
    let negative := 2 ^ (8 * size) ≤ 2 * bits
    let head := if negative then ['-'] else if d.sign then ['+'] else if d.space then [' '] else []
    let digits := Nat.toDigits 10 (if negative then 2 ^ (8 * size) - bits else bits)
    let digits := List.replicate ((d.precision.getD 1).toNat - digits.length) '0' ++ digits
    if d.zero ∧ d.precision = none then
      head ++ List.replicate ((d.width.getD 0).toNat - (head ++ digits).length) '0' ++ digits
    else if d.left then head ++ digits ++ pad (head ++ digits)
    else pad (head ++ digits) ++ (head ++ digits)
  | .S, .str s =>
    let text := d.precision.elim s.toList fun n => s.toList.take n.toNat
    if d.left then text ++ pad text else pad text ++ text
  | _, _ => []

def hostPrintf (format : List Char) (arg : Arg) : List Char :=
  match parsePrintfState format with
  | some (state, []) => (Directive.ofState state).print arg
  | _ => []

theorem standard_hostPrintf : Standard hostPrintf := by
  have hspell : ∀ s : Spec, hostPrintf s.spell = s.directive.print := by
    intro s
    funext arg
    have hparse := parsePrintfState_spell s []
    rw [List.append_nil] at hparse
    rw [hostPrintf, hparse, ← ofState_state]
  intro s t _ _ h
  rw [hspell, hspell, h]

/-! ### The statement -/

/-- The characters that are printed for a record are the meaning of the format exactly where the
format has no doubled percent sign. -/
theorem output_eq_meaning_iff {B : Builder} {host : List Char → Arg → List Char}
    {format : List Char} {vals vals' : List Value} {slots : List PrintfSlot} {items : List Item}
    {args : List (List Arg)} {mem : Memory} {p : ℕ}
    (hformat : format = spellAll items)
    (hparse : parseOnePrintfInstruction B format vals = some (slots, vals'))
    (hholds : Holds mem (PrintfLog.ofAddress mem p).content slots args) (hstd : Standard host) :
    printed host mem (printOutOneStatement slots (.ofAddress mem p)).out =
      meaning host items args ↔ .percent ∉ items := by
  have hslots : List.Forall₂ Recorded (slotsFrom [] items) slots := by
    rw [parseOnePrintfInstruction, hformat, parserPrintfFmt_iff.mpr ⟨items, rfl, rfl⟩] at hparse
    split at hparse
    · cases hparse
    · dsimp only at hparse
      split at hparse
      · cases hparse
      · exact convertArgs_recorded hparse
  rw [printed_printOutOneStatement hstd hslots _ hholds]
  exact render_eq_meaning_iff items args

/-- `printf("%+5v2d %s", …)` of 42, −7 and a string. -/
theorem output_eq_meaning_vector :
    let items : List Item := [.conversion ⟨[.sign], [5], none, some .two, .NONE, .D⟩,
      .char ' ' (by decide), .conversion ⟨[], [], none, none, .NONE, .S⟩]
    let mem : Memory := fun addr => if addr = 12 then 42 else 2 ^ 32 - 7
    ∃ slots vals', parseOnePrintfInstruction instructionBuilder
        ['%', '+', '5', 'v', '2', 'd', ' ', '%', 's']
        [⟨.vector 2 (.int 32), none⟩, ⟨.scalar .pointer, some "ok"⟩] = some (slots, vals') ∧
      printed hostPrintf mem (printOutOneStatement slots (.ofAddress mem 0)).out =
        meaning hostPrintf items [[.data 4 42, .data 4 (2 ^ 32 - 7)], [.str "ok"]] ∧
      meaning hostPrintf items [[.data 4 42, .data 4 (2 ^ 32 - 7)], [.str "ok"]] =
        "  +42,   -7 ok".toList := by
  intro items mem
  refine ⟨_, _, rfl, ?_, by decide⟩
  have hformat : ['%', '+', '5', 'v', '2', 'd', ' ', '%', 's'] = spellAll items := rfl
  have hparse : parseOnePrintfInstruction instructionBuilder
      ['%', '+', '5', 'v', '2', 'd', ' ', '%', 's']
      [⟨.vector 2 (.int 32), none⟩, ⟨.scalar .pointer, some "ok"⟩] = some (_, _) := rfl
  refine (output_eq_meaning_iff hformat hparse ?_ standard_hostPrintf).mpr (by decide)
  exact .data (by decide) (.string _ (.str rfl rfl (.nil _)))

/-- `printf("100%%")` prints two percent signs. -/
theorem percent_twice :
    let items : List Item :=
      [.char '1' (by decide), .char '0' (by decide), .char '0' (by decide), .percent]
    ∃ slots vals', parseOnePrintfInstruction instructionBuilder (spellAll items) [] =
        some (slots, vals') ∧
      Holds (fun _ => 0) 12 slots [] ∧ Standard hostPrintf ∧
      printed hostPrintf (fun _ => 0) (printOutOneStatement slots (.ofAddress (fun _ => 0) 0)).out =
        "100%%".toList ∧
      meaning hostPrintf items [] = "100%".toList :=
  ⟨_, _, rfl, .string _ (.nil _), standard_hostPrintf, by decide, by decide⟩

end PrintfParser

end Llvm
