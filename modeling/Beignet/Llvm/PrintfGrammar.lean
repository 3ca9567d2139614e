/-
The grammar of `printf` formats, and the parser of `llvm/llvm_printf_parser.cpp` on lists of
characters.

A format is a sequence of items: characters, doubled percent signs and conversions.  The parser
reads as many flags and digits as it can, so that the zeros that a width starts with are flags.

* `scanText_spell`, `items_scanText` — the text up to the next one;
* **`parserPrintfFmt_iff`** — the formats that are accepted, and their slots.
-/
import Beignet.Llvm.PrintfParser

namespace Llvm

namespace PrintfParser

open Ir.Printf

/-! ### Formats -/

inductive Flag where
  | left | sign | space | alternative | zero
  deriving DecidableEq

def Flag.char : Flag → Char
  | left => '-'
  | sign => '+'
  | space => ' '
  | alternative => '#'
  | zero => '0'

/-- The vector specifiers. -/
inductive VectorSize where
  | two | three | four | eight | sixteen
  deriving DecidableEq

namespace VectorSize

def count : VectorSize → ℕ
  | two => 2
  | three => 3
  | four => 4
  | eight => 8
  | sixteen => 16

def spell : VectorSize → List Char
  | two => ['v', '2']
  | three => ['v', '3']
  | four => ['v', '4']
  | eight => ['v', '8']
  | sixteen => ['v', '1', '6']

end VectorSize

def spellLength : LengthModifier → List Char
  | .HH => ['h', 'h']
  | .HL => ['h', 'l']
  | .H => ['h']
  | .L => ['l']
  | .NONE => []

def conversionChar : Conversion → Char
  | .D => 'd'
  | .I => 'i'
  | .O => 'o'
  | .U => 'u'
  | .X => 'X'
  | .x => 'x'
  | .F => 'F'
  | .f => 'f'
  | .E => 'E'
  | .e => 'e'
  | .G => 'G'
  | .g => 'g'
  | .A => 'A'
  | .a => 'a'
  | .C => 'c'
  | .S => 's'
  | .P => 'p'

abbrev Digit := Fin 10

def Digit.char (d : Digit) : Char := Char.ofNat ('0'.toNat + d)

/-- `'%' flags* width? ('.' digits*)? ('v' (2|3|4|8|16))? (hh|hl|h|l)? conversion` -/
structure Spec where
  flags : List Flag
  width : List Digit
  precision : Option (List Digit)
  vector : Option VectorSize
  length : LengthModifier
  conversion : Conversion
  deriving DecidableEq

namespace Spec

/-- What follows the numbers. -/
def spellEnd (s : Spec) : List Char :=
  (s.vector.elim [] VectorSize.spell) ++ (spellLength s.length ++ [conversionChar s.conversion])

def spell (s : Spec) : List Char :=
  '%' :: (s.flags.map Flag.char ++ (s.width.map Digit.char ++
    (s.precision.elim [] (fun ds => '.' :: ds.map Digit.char) ++ s.spellEnd)))

end Spec

inductive Item where
  | char (c : Char) (hc : c ≠ '%')
  | percent
  | conversion (spec : Spec)
  deriving DecidableEq

namespace Item

def spell : Item → List Char
  | char c _ => [c]
  | percent => ['%', '%']
  | conversion spec => spec.spell

def isConversion : Item → Bool
  | conversion _ => true
  | _ => false

end Item

/-! ### What is recorded -/

def number (n : ℤ) (ds : List Digit) : ℤ := ds.foldl (fun n d => n * 10 + d) n

namespace Spec

/-- The zeros in front of a width are flags. -/
def allFlags (s : Spec) : List Flag :=
  s.flags ++ (s.width.takeWhile (· = 0)).map fun _ => .zero

def digits (s : Spec) : List Digit := s.width.dropWhile (· = 0)

/-- A sign has precedence over a space, and the left end over the zeros behind it. -/
def state (s : Spec) : PrintfState where
  left_justified := .left ∈ s.allFlags
  sign_symbol := if .sign ∈ s.allFlags then 1 else if .space ∈ s.allFlags then 2 else 0
  alter_form := .alternative ∈ s.allFlags
  zero_padding := .zero ∈ s.allFlags.takeWhile (· ≠ .left)
  min_width := if s.digits = [] then -1 else number 0 s.digits
  precision := s.precision.elim (-1) (number 0)
  vector_n := s.vector.elim 0 VectorSize.count
  length_modifier := s.length
  conversion_specifier := s.conversion

end Spec

def flush (text : List Char) : List PrintfSlot :=
  if text = [] then [] else [.string (String.ofList text)]

/-- The slots behind a text that is being read. -/
def slotsFrom (text : List Char) : List Item → List PrintfSlot
  | [] => flush text
  | .conversion spec :: items => flush text ++ .state spec.state :: slotsFrom [] items
  | item :: items => slotsFrom (text ++ item.spell) items

/-! ### Numbers and flags -/

section

variable {fmt rest : List Char} {state state' : PrintfState}

theorem isDigit_iff {c : Char} : isDigit c = true ↔ ∃ d : Digit, c = d.char := by
  constructor
  · intro h
    rw [isDigit, Bool.and_eq_true, decide_eq_true_iff, decide_eq_true_iff, Char.le_def,
      Char.le_def] at h
    have h1 : '0'.toNat ≤ c.toNat := h.1
    have h2 : c.toNat ≤ '9'.toNat := h.2
    have h3 : '0'.toNat = 48 := rfl
    have h4 : '9'.toNat = 57 := rfl
    refine ⟨⟨c.toNat - 48, by omega⟩, ?_⟩
    rw [Digit.char, h3, show 48 + ((⟨c.toNat - 48, _⟩ : Fin 10) : ℕ) = c.toNat by
      show 48 + (c.toNat - 48) = _
      omega]
    exact (Char.ofNat_toNat c).symm
  · rintro ⟨d, rfl⟩
    revert d
    decide

theorem toNat_char (d : Digit) : (d.char.toNat : ℤ) - '0'.toNat = d := by
  revert d
  decide

theorem parseNumber_digits (n : ℤ) (ds : List Digit)
    (hrest : ∀ c ∈ rest.head?, isDigit c = false) :
    parseNumber n (ds.map Digit.char ++ rest) = (number n ds, rest) := by
  induction ds generalizing n with
  | nil =>
    cases rest with
    | nil => rfl
    | cons c rest =>
      rw [List.map_nil, List.nil_append, parseNumber, if_neg (by simp [hrest c rfl])]
      rfl
  | cons d ds ih =>
    rw [List.map_cons, List.cons_append, parseNumber, if_pos (isDigit_iff.mpr ⟨d, rfl⟩),
      toNat_char, ih]
    rfl

theorem digits_parseNumber {n n' : ℤ} (h : parseNumber n fmt = (n', rest)) :
    ∃ ds : List Digit, fmt = ds.map Digit.char ++ rest ∧ n' = number n ds ∧
      ∀ c ∈ rest.head?, isDigit c = false := by
  induction fmt generalizing n with
  | nil =>
    cases h
    exact ⟨[], rfl, rfl, by simp⟩
  | cons c fmt ih =>
    rw [parseNumber] at h
    split at h
    · next hc =>
      obtain ⟨d, rfl⟩ := isDigit_iff.mp hc
      rw [toNat_char] at h
      obtain ⟨ds, rfl, rfl, hrest⟩ := ih h
      exact ⟨d :: ds, rfl, rfl, hrest⟩
    · next hc =>
      cases h
      exact ⟨[], rfl, rfl, by simpa using hc⟩

/-- What the parser does with one flag. -/
def Flag.record (state : PrintfState) : Flag → PrintfState
  | left => { state with left_justified := true }
  | sign => { state with sign_symbol := 1 }
  | space => if state.sign_symbol = 0 then { state with sign_symbol := 2 } else state
  | alternative => { state with alter_form := true }
  | zero => if state.left_justified then state else { state with zero_padding := true }

/-- The flags together. -/
theorem foldl_record (flags : List Flag) (state : PrintfState) : flags.foldl Flag.record state =
    { state with
      left_justified := state.left_justified || .left ∈ flags
      sign_symbol := if .sign ∈ flags then 1 else if state.sign_symbol = 0 then
        if .space ∈ flags then 2 else 0 else state.sign_symbol
      alter_form := state.alter_form || .alternative ∈ flags
      zero_padding := state.zero_padding ||
        (!state.left_justified && .zero ∈ flags.takeWhile (· ≠ .left)) } := by
  induction flags generalizing state with
  | nil =>
    cases state
    simp
  | cons f flags ih =>
    rw [List.foldl_cons, ih]
    cases f with
    | left =>
      simp [Flag.record]
      congr
    | sign => simp [Flag.record]
    | space => by_cases hsign : state.sign_symbol = 0 <;> simp [Flag.record, hsign]
    | alternative =>
      simp [Flag.record]
      congr
    | zero => by_cases hleft : state.left_justified <;> simp [Flag.record, hleft]

theorem foldl_record_start (flags : List Flag) :
    flags.foldl Flag.record { conversion_specifier := .D } =
      { conversion_specifier := .D
        left_justified := .left ∈ flags
        sign_symbol := if .sign ∈ flags then 1 else if .space ∈ flags then 2 else 0
        alter_form := .alternative ∈ flags
        zero_padding := .zero ∈ flags.takeWhile (· ≠ .left) } := by
  rw [foldl_record]
  simp

theorem parseFlags_cons (f : Flag) (fmt : List Char) (state : PrintfState) :
    parseFlags (f.char :: fmt) state = parseFlags fmt (f.record state) := by
  cases f <;> rfl

theorem parseFlags_stop (hrest : ∀ c ∈ rest.head?, ∀ f : Flag, c ≠ f.char) :
    parseFlags rest state = (state, rest) := by
  cases rest with
  | nil => rfl
  | cons c rest =>
    have hleft : c ≠ '-' := hrest c rfl .left
    have hsign : c ≠ '+' := hrest c rfl .sign
    have hspace : c ≠ ' ' := hrest c rfl .space
    have halternative : c ≠ '#' := hrest c rfl .alternative
    have hzero : c ≠ '0' := hrest c rfl .zero
    rw [parseFlags, if_neg hleft, if_neg hsign, if_neg hspace, if_neg halternative, if_neg hzero]

theorem parseFlags_flags (flags : List Flag) (hrest : ∀ c ∈ rest.head?, ∀ f : Flag, c ≠ f.char) :
    parseFlags (flags.map Flag.char ++ rest) state = (flags.foldl Flag.record state, rest) := by
  induction flags generalizing state with
  | nil => exact parseFlags_stop hrest
  | cons f flags ih => rw [List.map_cons, List.cons_append, parseFlags_cons, ih, List.foldl_cons]

theorem flags_parseFlags (h : parseFlags fmt state = (state', rest)) :
    ∃ flags : List Flag, fmt = flags.map Flag.char ++ rest ∧
      state' = flags.foldl Flag.record state ∧ ∀ c ∈ rest.head?, ∀ f : Flag, c ≠ f.char := by
  induction fmt generalizing state with
  | nil =>
    cases h
    exact ⟨[], rfl, rfl, by simp⟩
  | cons c fmt ih =>
    by_cases hc : ∃ f : Flag, c = f.char
    · obtain ⟨f, rfl⟩ := hc
      rw [parseFlags_cons] at h
      obtain ⟨flags, rfl, rfl, hrest⟩ := ih h
      exact ⟨f :: flags, rfl, rfl, hrest⟩
    · have hstop : ∀ c' ∈ (c :: fmt).head?, ∀ f : Flag, c' ≠ f.char := by
        intro c' hc' f hf
        obtain rfl : c = c' := by simpa using hc'
        exact hc ⟨f, hf⟩
      rw [parseFlags_stop hstop] at h
      cases h
      exact ⟨[], rfl, rfl, hstop⟩

end

/-! ### One conversion -/

section

variable {fmt rest : List Char} {state : PrintfState} {s : Spec}

/-- Where flags and numbers end. -/
def Plain (c : Char) : Prop := isDigit c = false ∧ c ≠ '.' ∧ c ≠ '%' ∧ ∀ f : Flag, c ≠ f.char

instance (c : Char) : Decidable (Plain c) :=
  decidable_of_iff (isDigit c = false ∧ c ≠ '.' ∧ c ≠ '%' ∧
    ∀ f ∈ [Flag.left, .sign, .space, .alternative, .zero], c ≠ f.char)
    (by simp only [Plain, List.forall_mem_cons]
        exact and_congr_right fun _ => and_congr_right fun _ => and_congr_right fun _ =>
          ⟨fun h f => by cases f <;> tauto,
            fun h => ⟨h _, h _, h _, h _, h _, fun _ hf => absurd hf List.not_mem_nil⟩⟩)

theorem plain_end (length : LengthModifier) (conversion : Conversion) :
    ∃ c l, spellLength length ++ [conversionChar conversion] = c :: l ∧ Plain c ∧ c ≠ 'v' := by
  cases length <;> cases conversion <;> exact ⟨_, _, rfl, by decide, by decide⟩

theorem plain_spellEnd (s : Spec) : ∃ c l, s.spellEnd = c :: l ∧ Plain c := by
  obtain ⟨flags, width, precision, vector, length, conversion⟩ := s
  cases vector with
  | none =>
    obtain ⟨c, l, heq, hc, -⟩ := plain_end length conversion
    exact ⟨c, l, heq, hc⟩
  | some v => cases v <;> exact ⟨'v', _, rfl, by decide⟩

theorem head_of_plain {c : Char} {l : List Char} (h : fmt = c :: l) {P : Char → Prop} (hc : P c) :
    ∀ c' ∈ (fmt ++ rest).head?, P c' := by
  subst h
  intro c' hc'
  obtain rfl : c = c' := by simpa using hc'
  exact hc

/-! The vector, the length and the conversion. -/

theorem parseVector_spell (s : Spec) (rest : List Char) :
    parseVector (s.spellEnd ++ rest) = some (s.vector.elim 0 VectorSize.count,
      spellLength s.length ++ conversionChar s.conversion :: rest) := by
  obtain ⟨flags, width, precision, vector, length, conversion⟩ := s
  cases vector with
  | none => cases length <;> cases conversion <;> rfl
  | some v =>
    simp only [Spec.spellEnd, Option.elim, List.append_assoc, List.singleton_append]
    cases v <;> rfl

theorem vector_parseVector {n : ℕ} (h : parseVector fmt = some (n, rest)) :
    ∃ v : Option VectorSize, fmt = v.elim [] VectorSize.spell ++ rest ∧
      n = v.elim 0 VectorSize.count := by
  unfold parseVector at h
  split at h
  · cases h
    exact ⟨some .two, rfl, rfl⟩
  · cases h
    exact ⟨some .three, rfl, rfl⟩
  · cases h
    exact ⟨some .four, rfl, rfl⟩
  · cases h
    exact ⟨some .eight, rfl, rfl⟩
  · cases h
    exact ⟨some .sixteen, rfl, rfl⟩
  · cases h
  · cases h
    exact ⟨none, rfl, rfl⟩

theorem parseLength_spell (length : LengthModifier) (conversion : Conversion) (rest : List Char) :
    parseLength (spellLength length ++ conversionChar conversion :: rest) =
      (length, conversionChar conversion :: rest) := by
  cases length <;> cases conversion <;> rfl

theorem length_parseLength {length : LengthModifier} (h : parseLength fmt = (length, rest)) :
    fmt = spellLength length ++ rest := by
  unfold parseLength at h
  split at h <;> cases h <;> rfl

theorem parseConversion_spell (conversion : Conversion) (rest : List Char) :
    parseConversion (conversionChar conversion :: rest) = some (conversion, rest) := by
  cases conversion <;> rfl

theorem conversion_parseConversion {conversion : Conversion}
    (h : parseConversion fmt = some (conversion, rest)) :
    fmt = conversionChar conversion :: rest := by
  unfold parseConversion at h
  split at h
  · cases h
  · split at h <;> cases h <;> rfl

/-! The numbers. -/

theorem parseMinWidth_digits (ds : List Digit) (hrest : ∀ c ∈ rest.head?, isDigit c = false) :
    parseMinWidth (ds.map Digit.char ++ rest) = (if ds = [] then -1 else number 0 ds, rest) := by
  cases ds with
  | nil =>
    cases rest with
    | nil => rfl
    | cons c rest =>
      show parseMinWidth (c :: rest) = _
      rw [parseMinWidth, if_neg (by simp [hrest c rfl])]
      rfl
  | cons d ds =>
    have hnumber := parseNumber_digits 0 (d :: ds) hrest
    rw [List.map_cons, List.cons_append] at hnumber ⊢
    rw [parseMinWidth, if_pos (isDigit_iff.mpr ⟨d, rfl⟩), hnumber,
      if_neg (List.cons_ne_nil d ds)]

theorem digits_parseMinWidth {n : ℤ} (h : parseMinWidth fmt = (n, rest)) :
    ∃ ds : List Digit, fmt = ds.map Digit.char ++ rest ∧
      n = (if ds = [] then -1 else number 0 ds) ∧ ∀ c ∈ rest.head?, isDigit c = false := by
  cases fmt with
  | nil =>
    cases h
    exact ⟨[], rfl, rfl, by simp⟩
  | cons c fmt =>
    rw [parseMinWidth] at h
    split at h
    · next hc =>
      obtain ⟨ds, heq, rfl, hrest⟩ := digits_parseNumber h
      refine ⟨ds, heq, ?_, hrest⟩
      rw [if_neg]
      rintro rfl
      rw [List.map_nil, List.nil_append] at heq
      rw [← heq] at hrest
      exact absurd hc (by simp [hrest c rfl])
    · next hc =>
      cases h
      exact ⟨[], rfl, rfl, by simpa using hc⟩

theorem parsePrecision_spell (precision : Option (List Digit)) (hdot : ∀ c ∈ rest.head?, c ≠ '.')
    (hrest : ∀ c ∈ rest.head?, isDigit c = false) :
    parsePrecision (precision.elim [] (fun ds => '.' :: ds.map Digit.char) ++ rest) =
      (precision.elim (-1) (number 0), rest) := by
  cases precision with
  | none =>
    show parsePrecision rest = _
    unfold parsePrecision
    split
    · exact absurd rfl (hdot '.' rfl)
    · rfl
  | some ds => exact parseNumber_digits 0 ds hrest

theorem precision_parsePrecision {n : ℤ} (h : parsePrecision fmt = (n, rest)) :
    ∃ precision : Option (List Digit),
      fmt = precision.elim [] (fun ds => '.' :: ds.map Digit.char) ++ rest ∧
        n = precision.elim (-1) (number 0) := by
  unfold parsePrecision at h
  split at h
  · obtain ⟨ds, rfl, rfl, -⟩ := digits_parseNumber h
    exact ⟨some ds, rfl, rfl⟩
  · cases h
    exact ⟨none, rfl, rfl⟩

/-! All of it. -/

theorem width_eq (s : Spec) :
    s.flags.map Flag.char ++ s.width.map Digit.char =
      s.allFlags.map Flag.char ++ s.digits.map Digit.char := by
  have hzeros : (s.width.takeWhile (· = 0)).map Digit.char =
      ((s.width.takeWhile (· = 0)).map fun _ => Flag.zero).map Flag.char := by
    rw [List.map_map]
    refine List.map_congr_left fun d hd => ?_
    have hzero : d = 0 := by simpa using List.mem_takeWhile_imp hd
    rw [hzero]
    decide
  rw [Spec.allFlags, Spec.digits, List.map_append, ← hzeros, List.append_assoc, ← List.map_append,
    List.takeWhile_append_dropWhile]

/-- What the flags end at. -/
theorem head_digits (s : Spec) {l : List Char} (h : ∀ c ∈ l.head?, ∀ f : Flag, c ≠ f.char) :
    ∀ c ∈ (s.digits.map Digit.char ++ l).head?, ∀ f : Flag, c ≠ f.char := by
  cases hdigits : s.digits with
  | nil => exact h
  | cons d ds =>
    have hzero : d ≠ 0 := by
      have hhead := List.head?_dropWhile_not (fun d : Digit => decide (d = 0)) s.width
      rw [show s.width.dropWhile (fun d => decide (d = 0)) = d :: ds from hdigits] at hhead
      simpa using hhead
    have hchar : ∀ d : Digit, d ≠ 0 → ∀ f : Flag, d.char ≠ f.char := by
      intro d hd f
      revert d
      cases f <;> decide
    intro c hc f
    obtain rfl : d.char = c := by simpa using hc
    exact hchar d hzero f

theorem parsePrintfState_spell (s : Spec) (rest : List Char) :
    parsePrintfState (s.spell ++ rest) = some (s.state, rest) := by
  obtain ⟨c, l, hend, hplain⟩ := plain_spellEnd s
  have hdigit : ∀ c ∈ (s.spellEnd ++ rest).head?, isDigit c = false :=
    head_of_plain hend hplain.1
  have hdot : ∀ c ∈ (s.spellEnd ++ rest).head?, c ≠ '.' := head_of_plain hend hplain.2.1
  have hflag : ∀ c ∈ (s.spellEnd ++ rest).head?, ∀ f : Flag, c ≠ f.char :=
    head_of_plain hend hplain.2.2.2
  -- a number ends where the precision or the rest begins
  set prec : List Char := s.precision.elim [] fun ds => '.' :: ds.map Digit.char with hprec
  have hprecHead : ∀ {P : Char → Prop}, P '.' → (∀ c ∈ (s.spellEnd ++ rest).head?, P c) →
      ∀ c ∈ (prec ++ (s.spellEnd ++ rest)).head?, P c := by
    intro P hp hall
    rw [hprec]
    cases s.precision with
    | none => exact hall
    | some ds =>
      intro c hc
      obtain rfl : '.' = c := by simpa using hc
      exact hp
  have hspell : s.spell ++ rest = '%' :: (s.allFlags.map Flag.char ++
      (s.digits.map Digit.char ++ (prec ++ (s.spellEnd ++ rest)))) := by
    have hwidth := width_eq s
    simp only [Spec.spell, List.cons_append, List.append_assoc, ← hprec]
    rw [← List.append_assoc, hwidth, List.append_assoc]
  rw [hspell, parsePrintfState, parseFlags_flags _ (head_digits s
    (hprecHead (fun f => by cases f <;> decide) hflag))]
  dsimp only
  rw [parseMinWidth_digits _ (hprecHead (by decide) hdigit)]
  dsimp only
  rw [parsePrecision_spell _ hdot hdigit]
  dsimp only
  rw [parseVector_spell]
  dsimp only
  rw [parseLength_spell]
  dsimp only
  rw [parseConversion_spell, foldl_record_start]
  rfl

theorem spec_parsePrintfState (h : parsePrintfState fmt = some (state, rest)) :
    ∃ s : Spec, fmt = s.spell ++ rest ∧ state = s.state := by
  unfold parsePrintfState at h
  split at h
  · next fmt =>
    obtain ⟨⟨st, fmt1⟩, hflags⟩ : ∃ p, parseFlags fmt { conversion_specifier := .D } = p := ⟨_, rfl⟩
    obtain ⟨⟨min_width, fmt2⟩, hwidth⟩ : ∃ p, parseMinWidth fmt1 = p := ⟨_, rfl⟩
    obtain ⟨⟨precision, fmt3⟩, hprecision⟩ : ∃ p, parsePrecision fmt2 = p := ⟨_, rfl⟩
    simp only [hflags, hwidth, hprecision] at h
    split at h
    · cases h
    · next n fmt4 hvector =>
      obtain ⟨⟨length, fmt5⟩, hlength⟩ : ∃ p, parseLength fmt4 = p := ⟨_, rfl⟩
      simp only [hlength] at h
      split at h
      · cases h
      · next conversion fmt6 hconversion =>
        cases h
        obtain ⟨flags, rfl, rfl, hstop⟩ := flags_parseFlags hflags
        obtain ⟨digits, rfl, rfl, -⟩ := digits_parseMinWidth hwidth
        obtain ⟨prec, rfl, rfl⟩ := precision_parsePrecision hprecision
        obtain ⟨v, rfl, rfl⟩ := vector_parseVector hvector
        obtain rfl := length_parseLength hlength
        obtain rfl := conversion_parseConversion hconversion
        have hdrop : digits.takeWhile (· = 0) = [] ∧ digits.dropWhile (· = 0) = digits := by
          cases digits with
          | nil => exact ⟨rfl, rfl⟩
          | cons d ds =>
            have hd : d ≠ 0 := by
              rintro rfl
              exact hstop '0' rfl .zero rfl
            simp [hd]
        refine ⟨⟨flags, digits, prec, v, length, conversion⟩, ?_, ?_⟩
        · simp only [Spec.spell, Spec.spellEnd, List.cons_append, List.append_assoc,
            List.nil_append]
        · simp only [Spec.state, Spec.allFlags, Spec.digits, hdrop.1, hdrop.2, List.map_nil,
            List.append_nil, foldl_record_start]
  · cases h

end

/-! ### All items -/

section

variable {fmt rest text acc : List Char} {items : List Item} {slots : List PrintfSlot}

def spellAll (items : List Item) : List Char := items.flatMap Item.spell

/-- Where a text ends. -/
def Stops (rest : List Char) : Prop := rest = [] ∨ ∃ d l, rest = '%' :: d :: l ∧ d ≠ '%'

theorem spell_cons (s : Spec) : ∃ d l, s.spell = '%' :: d :: l ∧ d ≠ '%' := by
  have hdigit : ∀ d : Digit, d.char ≠ '%' := by decide
  obtain ⟨flags, width, precision, vector, length, conversion⟩ := s
  cases flags with
  | cons f flags => exact ⟨f.char, _, rfl, by cases f <;> decide⟩
  | nil =>
    cases width with
    | cons d width => exact ⟨d.char, _, rfl, hdigit d⟩
    | nil =>
      cases precision with
      | some ds => exact ⟨'.', _, rfl, by decide⟩
      | none =>
        obtain ⟨c, l, hend, hplain⟩ := plain_spellEnd ⟨[], [], none, vector, length, conversion⟩
        exact ⟨c, l, congrArg ('%' :: ·) hend, hplain.2.2.1⟩

theorem stops_conversion (s : Spec) (rest : List Char) : Stops (s.spell ++ rest) := by
  obtain ⟨d, l, heq, hd⟩ := spell_cons s
  exact Or.inr ⟨d, l ++ rest, by rw [heq]; rfl, hd⟩

theorem scanText_char {c : Char} (hc : c ≠ '%') (fmt acc : List Char) :
    scanText (c :: fmt) acc = scanText fmt (acc ++ [c]) := by
  cases fmt with
  | nil => exact if_neg hc
  | cons d fmt => rw [scanText, if_neg hc]

theorem scanText_stops (h : Stops rest) (acc : List Char) :
    scanText rest acc = some (acc, rest) := by
  rcases h with rfl | ⟨d, l, rfl, hd⟩
  · rfl
  · rw [scanText, if_pos rfl, if_neg hd]

theorem scanText_spell (htexts : ∀ item ∈ items, item.isConversion = false) (hrest : Stops rest) :
    scanText (spellAll items ++ rest) acc = some (acc ++ spellAll items, rest) := by
  induction items generalizing acc with
  | nil => rw [spellAll, List.flatMap_nil, List.nil_append, List.append_nil, scanText_stops hrest]
  | cons item items ih =>
    have hih := fun acc => @ih acc fun item' h => htexts item' (List.mem_cons_of_mem _ h)
    have hitem := htexts item List.mem_cons_self
    rw [spellAll, List.flatMap_cons, ← spellAll, List.append_assoc]
    cases item with
    | char c hc =>
      show scanText (c :: (spellAll items ++ rest)) acc = _
      rw [scanText_char hc, hih, List.append_assoc]
      rfl
    | percent =>
      show scanText ('%' :: '%' :: (spellAll items ++ rest)) acc = _
      rw [scanText, if_pos rfl, if_pos rfl, hih, List.append_assoc]
      rfl
    | conversion s => cases hitem

theorem items_scanText (h : scanText fmt acc = some (text, rest)) :
    ∃ items : List Item, (∀ item ∈ items, item.isConversion = false) ∧
      fmt = spellAll items ++ rest ∧ text = acc ++ spellAll items ∧ Stops rest := by
  induction fmt, acc using scanText.induct with
  | case1 acc =>
    cases h
    exact ⟨[], by simp, rfl, (List.append_nil _).symm, Or.inl rfl⟩
  | case2 acc =>
    cases h
  | case3 c acc hc =>
    rw [show scanText [c] acc = some (acc ++ [c], []) from if_neg hc] at h
    cases h
    exact ⟨[.char c hc], by simp [Item.isConversion], rfl, rfl, Or.inl rfl⟩
  | case4 p acc ih =>
    rw [scanText, if_pos rfl, if_pos rfl] at h
    obtain ⟨items, htexts, rfl, rfl, hstops⟩ := ih h
    refine ⟨.percent :: items, ?_, rfl, ?_, hstops⟩
    · exact List.forall_mem_cons.mpr ⟨rfl, htexts⟩
    · rw [List.append_assoc]
      rfl
  | case5 d p acc hd =>
    rw [scanText, if_pos rfl, if_neg hd] at h
    cases h
    exact ⟨[], by simp, rfl, (List.append_nil _).symm, Or.inr ⟨d, p, rfl, hd⟩⟩
  | case6 c d p acc hc ih =>
    rw [scanText, if_neg hc] at h
    obtain ⟨items, htexts, heq, rfl, hstops⟩ := ih h
    refine ⟨.char c hc :: items, ?_, ?_, ?_, hstops⟩
    · exact List.forall_mem_cons.mpr ⟨rfl, htexts⟩
    · rw [heq]
      rfl
    · rw [List.append_assoc]
      rfl

theorem slotsFrom_texts {texts : List Item} (htexts : ∀ item ∈ texts, item.isConversion = false)
    (acc : List Char) (items : List Item) :
    slotsFrom acc (texts ++ items) = slotsFrom (acc ++ spellAll texts) items := by
  induction texts generalizing acc with
  | nil => rw [spellAll, List.flatMap_nil, List.append_nil, List.nil_append]
  | cons item texts ih =>
    have hitem := htexts item List.mem_cons_self
    have hih := ih fun item' h => htexts item' (List.mem_cons_of_mem _ h)
    have hstep : slotsFrom acc (item :: (texts ++ items)) =
        slotsFrom (acc ++ item.spell) (texts ++ items) := by
      cases item with
      | conversion s => cases hitem
      | _ => rfl
    rw [List.cons_append, hstep, hih, List.append_assoc]
    rfl

/-- Texts in front of the first conversion. -/
theorem exists_texts (items : List Item) : ∃ texts rest,
    items = texts ++ rest ∧ (∀ item ∈ texts, item.isConversion = false) ∧
      (rest = [] ∨ ∃ s rest', rest = .conversion s :: rest') := by
  refine ⟨items.takeWhile (!·.isConversion), items.dropWhile (!·.isConversion),
    (List.takeWhile_append_dropWhile).symm, fun item h => ?_, ?_⟩
  · simpa using List.mem_takeWhile_imp h
  · cases hdrop : items.dropWhile (!·.isConversion) with
    | nil => exact Or.inl rfl
    | cons item rest =>
      have hhead := List.head?_dropWhile_not (fun item : Item => !item.isConversion) items
      rw [hdrop] at hhead
      cases item with
      | conversion s => exact Or.inr ⟨s, rest, rfl⟩
      | _ => cases hhead

theorem spellAll_append (items items' : List Item) :
    spellAll (items ++ items') = spellAll items ++ spellAll items' := List.flatMap_append

theorem spell_length_pos (s : Spec) : 0 < s.spell.length := by
  obtain ⟨d, l, heq, -⟩ := spell_cons s
  rw [heq]
  exact Nat.succ_pos _

theorem spellAll_ne_nil {item : Item} : spellAll (item :: items) ≠ [] := by
  intro h
  rw [spellAll, List.flatMap_cons, List.append_eq_nil_iff] at h
  cases item with
  | conversion s =>
    exact absurd (h.1 : s.spell = []) (List.ne_nil_of_length_pos (spell_length_pos s))
  | _ => cases h.1

/-- One round of the loop. -/
theorem parseSlots_succ {fuel : ℕ} (hne : fmt ≠ []) :
    parseSlots (fuel + 1) fmt = (scanText fmt []).bind fun p =>
      if p.2 = [] then some (flush p.1)
      else (parsePrintfState p.2).bind fun q =>
        (parseSlots fuel q.2).map fun slots => flush p.1 ++ .state q.1 :: slots := by
  cases fmt with
  | nil => exact absurd rfl hne
  | cons c fmt =>
    rw [parseSlots]
    · cases scanText (c :: fmt) [] with
      | none => rfl
      | some p =>
        obtain ⟨text, rest⟩ := p
        by_cases hrest : rest = []
        · simp only [Option.bind_some, if_pos hrest]
          rfl
        · simp only [Option.bind_some, if_neg hrest]
          cases parsePrintfState rest with
          | none => rfl
          | some q => rfl
    · exact hne

theorem parseSlots_spell {fuel : ℕ} (h : (spellAll items).length ≤ fuel) :
    parseSlots fuel (spellAll items) = some (slotsFrom [] items) := by
  induction fuel generalizing items with
  | zero =>
    cases items with
    | nil => rfl
    | cons item items =>
      exact absurd (List.length_eq_zero_iff.mp (Nat.le_zero.mp h)) spellAll_ne_nil
  | succ fuel ih =>
    cases hitems : items with
    | nil => rfl
    | cons first rest =>
      rw [← hitems]
      have hne : spellAll items ≠ [] := hitems ▸ spellAll_ne_nil
      obtain ⟨texts, rest, rfl, htexts, hrest⟩ := exists_texts items
      rw [parseSlots_succ hne, spellAll_append, slotsFrom_texts htexts, List.nil_append]
      rcases hrest with rfl | ⟨s, rest, rfl⟩
      · rw [show spellAll [] = [] from rfl, scanText_spell htexts (Or.inl rfl)]
        rfl
      · have hspell : spellAll (.conversion s :: rest) = s.spell ++ spellAll rest := rfl
        have hlength : (spellAll rest).length ≤ fuel := by
          rw [spellAll_append, hspell, List.length_append, List.length_append] at h
          have := spell_length_pos s
          omega
        have hne' : s.spell ++ spellAll rest ≠ [] := hspell ▸ spellAll_ne_nil
        rw [hspell, scanText_spell htexts (stops_conversion s _)]
        simp only [Option.bind_some, if_neg hne', parsePrintfState_spell, ih hlength,
          List.nil_append, Option.map_some]
        rfl

theorem items_parseSlots {fuel : ℕ} (h : parseSlots fuel fmt = some slots) :
    ∃ items : List Item, fmt = spellAll items ∧ slots = slotsFrom [] items := by
  induction fuel generalizing fmt slots with
  | zero =>
    cases fmt with
    | nil =>
      cases h
      exact ⟨[], rfl, rfl⟩
    | cons c fmt => cases h
  | succ fuel ih =>
    by_cases hne : fmt = []
    · subst hne
      cases h
      exact ⟨[], rfl, rfl⟩
    · rw [parseSlots_succ hne] at h
      obtain ⟨⟨text, rest⟩, hscan, h⟩ := Option.bind_eq_some_iff.mp h
      obtain ⟨texts, htexts, rfl, rfl, -⟩ := items_scanText hscan
      rw [List.nil_append] at h
      split at h
      · next hrest =>
        obtain rfl : rest = [] := hrest
        cases h
        refine ⟨texts, List.append_nil _, ?_⟩
        have hslots := slotsFrom_texts htexts [] []
        rw [List.append_nil, List.nil_append] at hslots
        exact hslots.symm
      · obtain ⟨⟨state, rend⟩, hstate, h⟩ := Option.bind_eq_some_iff.mp h
        obtain ⟨slots', hslots, rfl⟩ := Option.map_eq_some_iff.mp h
        obtain ⟨s, heq, rfl⟩ := spec_parsePrintfState hstate
        obtain ⟨items, rfl, rfl⟩ := ih hslots
        refine ⟨texts ++ .conversion s :: items, ?_, ?_⟩
        · rw [spellAll_append]
          exact congrArg _ heq
        · rw [slotsFrom_texts htexts, List.nil_append]
          rfl

/-- The formats that are accepted are those of the grammar. -/
theorem parserPrintfFmt_iff : parserPrintfFmt fmt = some slots ↔
    ∃ items : List Item, fmt = spellAll items ∧ slots = slotsFrom [] items := by
  refine ⟨items_parseSlots, ?_⟩
  rintro ⟨items, rfl, rfl⟩
  exact parseSlots_spell le_rfl

end

end PrintfParser

end Llvm
