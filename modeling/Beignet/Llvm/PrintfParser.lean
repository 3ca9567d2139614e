/-
The front end of `printf` (`llvm/llvm_printf_parser.cpp`): the parser of the format, and the
conversions that `generateOneParameterInst` puts before the call.

What the pass looks at in an LLVM value is its type and whether it is a constant expression over
a C string.  The IR builder is LLVM's: a parameter, with the types that its instructions have.

* `generateOneParameterInst_passes` — what an accepted conversion passes on.
-/
import Beignet.Ir.Printf
import Beignet.Lib.Lists

namespace Llvm

namespace PrintfParser

open Ir.Printf

/-! ### The format -/

def isDigit (c : Char) : Bool := '0' ≤ c && c ≤ '9'

def parseFlags : List Char → PrintfState → PrintfState × List Char
  | [], state => (state, [])
  | c :: fmt, state =>
    if c = '-' then parseFlags fmt { state with left_justified := true }
    else if c = '+' then parseFlags fmt { state with sign_symbol := 1 }
    else if c = ' ' then
      parseFlags fmt (if state.sign_symbol = 0 then { state with sign_symbol := 2 } else state)
    else if c = '#' then parseFlags fmt { state with alter_form := true }
    else if c = '0' then
      parseFlags fmt (if state.left_justified then state else { state with zero_padding := true })
    else (state, c :: fmt)

def parseNumber (n : ℤ) : List Char → ℤ × List Char
  | [] => (n, [])
  | c :: fmt =>
    if isDigit c then parseNumber (n * 10 + (c.toNat - '0'.toNat)) fmt else (n, c :: fmt)

def parseMinWidth : List Char → ℤ × List Char
  | c :: fmt => if isDigit c then parseNumber 0 (c :: fmt) else (-1, c :: fmt)
  | [] => (-1, [])

def parsePrecision : List Char → ℤ × List Char
  | '.' :: fmt => parseNumber 0 fmt
  | fmt => (-1, fmt)

def parseVector : List Char → Option (ℕ × List Char)
  | 'v' :: '2' :: fmt => some (2, fmt)
  | 'v' :: '3' :: fmt => some (3, fmt)
  | 'v' :: '4' :: fmt => some (4, fmt)
  | 'v' :: '8' :: fmt => some (8, fmt)
  | 'v' :: '1' :: '6' :: fmt => some (16, fmt)
  | 'v' :: _ => none
  | fmt => some (0, fmt)

def parseLength : List Char → LengthModifier × List Char
  | 'h' :: 'h' :: fmt => (.HH, fmt)
  | 'h' :: 'l' :: fmt => (.HL, fmt)
  | 'h' :: fmt => (.H, fmt)
  | 'l' :: fmt => (.L, fmt)
  | fmt => (.NONE, fmt)

def parseConversion : List Char → Option (Conversion × List Char)
  | [] => none
  | c :: fmt =>
    (match c with
      | 'd' => some Conversion.D
      | 'i' => some .I
      | 'o' => some .O
      | 'u' => some .U
      | 'x' => some .x
      | 'X' => some .X
      | 'f' => some .f
      | 'F' => some .F
      | 'e' => some .e
      | 'E' => some .E
      | 'g' => some .g
      | 'G' => some .G
      | 'a' => some .a
      | 'A' => some .A
      | 'c' => some .C
      | 's' => some .S
      | 'p' => some .P
      | _ => none).map (·, fmt)

/-- `__parse_printf_state`: the state of a conversion and what follows it, `none` for -1.  The
specifier is read last; `D` stands in its place until then. -/
def parsePrintfState : List Char → Option (PrintfState × List Char)
  | '%' :: fmt =>
    let (state, fmt) := parseFlags fmt { conversion_specifier := .D }
    let (min_width, fmt) := parseMinWidth fmt
    let (precision, fmt) := parsePrecision fmt
    match parseVector fmt with
    | none => none
    | some (vector_n, fmt) =>
      let (length_modifier, fmt) := parseLength fmt
      match parseConversion fmt with
      | none => none
      | some (conversion, fmt) =>
        some ({ state with
          min_width := min_width
          precision := precision
          vector_n := vector_n
          length_modifier := length_modifier
          conversion_specifier := conversion }, fmt)
  | _ => none

/-- The text before the next conversion and what follows it.  A doubled `%` is part of the text,
as it stands; one at the end of the format is an error. -/
def scanText : List Char → List Char → Option (List Char × List Char)
  | [], text => some (text, [])
  | [c], text => if c = '%' then none else some (text ++ [c], [])
  | c :: d :: p, text =>
    if c = '%' then
      if d = '%' then scanText p (text ++ ['%', '%']) else some (text, c :: d :: p)
    else scanText (d :: p) (text ++ [c])

/-- The loop of `parser_printf_fmt`.  Each round reads at least one character, so that the
length of the format is fuel enough. -/
def parseSlots : ℕ → List Char → Option (List PrintfSlot)
  | _, [] => some []
  | 0, _ :: _ => none
  | fuel + 1, begin =>
    match scanText begin [] with
    | none => none
    | some (text, p) =>
      let slots := if text = [] then [] else [PrintfSlot.string (String.ofList text)]
      if p = [] then some slots
      else
        match parsePrintfState p with
        | none => none
        | some (state, rend) => (parseSlots fuel rend).map (slots ++ .state state :: ·)

def parserPrintfFmt (format : List Char) : Option (List PrintfSlot) :=
  parseSlots format.length format

/-! ### Values -/

inductive ScalarType where
  | int (bits : ℕ)
  | half | float | double | pointer
  | other
  deriving DecidableEq

inductive LlvmType where
  | scalar (type : ScalarType)
  | vector (vec_num : ℕ) (elt_type : ScalarType)
  deriving DecidableEq

/-- The `cString` is the text where the value is a constant expression whose first operand is
over a constant C string. -/
structure Value where
  type : LlvmType
  cString : Option String

inductive Cast where
  | intCast (signed : Bool)
  | siToFP | fpToSI | fpToUI | fpCast | ptrToInt

/-- The instructions of the IR builder that the pass uses, with their types. -/
structure Builder where
  cast : Cast → Value → ScalarType → Value
  extractElement : Value → ℕ → Value
  insertElement : Value → Value → ℕ → Value
  undef : LlvmType → Value
  type_cast : ∀ op v type, (cast op v type).type = .scalar type
  type_insertElement : ∀ vec elt i, (insertElement vec elt i).type = vec.type
  type_undef : ∀ type, (undef type).type = type

/-! ### generateOneParameterInst -/

section

variable (B : Builder)

/-- The conversion of a vector, element by element, into an undefined one. -/
def convertElements (op : Cast) (arg : Value) (vec_num : ℕ) (elt_dst_type : ScalarType) : Value :=
  (List.range vec_num).foldl
    (fun vec i => B.insertElement vec (B.cast op (B.extractElement arg i) elt_dst_type) i)
    (B.undef (.vector vec_num elt_dst_type))

def isSigned : Conversion → Bool
  | .I | .D => true
  | _ => false

/-- The integer type that an integer conversion prints. -/
def integerBits (state : PrintfState) : ℕ := if state.length_modifier = .L then 64 else 32

def generateVectorParameter (state : PrintfState) (arg : Value) (vec_num : ℕ)
    (elt_type : ScalarType) : Option (PrintfState × Value) :=
  if vec_num ≠ state.vector_n then none
  else
    match state.conversion_specifier.kind, elt_type with
    | .integer, .int bits =>
      if bits ≠ integerBits state then
        some (state, convertElements B (.intCast (isSigned state.conversion_specifier)) arg vec_num
          (.int (integerBits state)))
      else some (state, arg)
    | .floating, .float => some (state, arg)
    | .floating, .double => some (state, convertElements B .fpCast arg vec_num .float)
    | _, _ => none

def generateIntegerParameter (state : PrintfState) (arg : Value) (bits : ℕ) :
    Option (PrintfState × Value) :=
  match state.conversion_specifier.kind with
  | .integer =>
    if bits ≠ integerBits state then
      some (state, B.cast (.intCast (isSigned state.conversion_specifier)) arg
        (.int (integerBits state)))
    else some (state, arg)
  | .character => some (state, B.cast (.intCast false) arg (.int 8))
  | .floating => some (state, B.cast .siToFP arg .float)
  | .str => some ({ state with str := "(null)" }, arg)
  | .pointer => none

/-- The NaN that stands in for an undefined argument is overwritten in every case that is
accepted. -/
def generateFloatParameter (state : PrintfState) (arg : Value) : Option (PrintfState × Value) :=
  match state.conversion_specifier.kind with
  | .integer =>
    some (state,
      B.cast (if isSigned state.conversion_specifier then .fpToSI else .fpToUI) arg (.int 32))
  | .floating => some (state, B.cast .fpCast arg .float)
  | _ => none

def generatePointerParameter (state : PrintfState) (arg : Value) : Option (PrintfState × Value) :=
  match state.conversion_specifier.kind with
  | .str => arg.cString.map fun str => ({ state with str := str }, arg)
  | .pointer => some (state, B.cast .ptrToInt arg (.int 32))
  | _ => none

/-- The state with the string that it records, and the argument of the call from then on. -/
def generateOneParameterInst (state : PrintfState) (arg : Value) : Option (PrintfState × Value) :=
  match arg.type with
  | .vector vec_num elt_type => generateVectorParameter B state arg vec_num elt_type
  | .scalar (.int bits) => generateIntegerParameter B state arg bits
  | .scalar .double | .scalar .float => generateFloatParameter B state arg
  | .scalar .pointer => generatePointerParameter B state arg
  | .scalar .half | .scalar .other => none

/-- The loop of `parseOnePrintfInstruction` over the slots. -/
def convertArgs : List PrintfSlot → List Value → Option (List PrintfSlot × List Value)
  | [], _ => some ([], [])
  | .string s :: fmt, args => (convertArgs fmt args).map fun r => (.string s :: r.1, r.2)
  | .state _ :: _, [] => none
  | .state state :: fmt, arg :: args =>
    match generateOneParameterInst B state arg with
    | none => none
    | some (state', arg') =>
      (convertArgs fmt args).map fun r => (.state state' :: r.1, arg' :: r.2)

/-- The slots that the host prints and the arguments that are passed on, where the statement is
accepted. -/
def parseOnePrintfInstruction (format : List Char) (args : List Value) :
    Option (List PrintfSlot × List Value) :=
  if format = [] then none
  else
    match parserPrintfFmt format with
    | none => none
    | some fmt => if (states fmt).length ≠ args.length then none else convertArgs B fmt args

/-! ### What is passed on -/

variable {B}

theorem type_convertElements (op : Cast) (arg : Value) (vec_num : ℕ) (elt : ScalarType) :
    (convertElements B op arg vec_num elt).type = .vector vec_num elt := by
  refine Lists.foldl_invariant
    (I := fun vec : Value => vec.type = .vector vec_num elt) ?_ (B.type_undef _)
  intro i _ vec hvec
  rw [B.type_insertElement, hvec]

/-- What an accepted conversion passes on in the place of its argument. -/
inductive Passes (state : PrintfState) (arg arg' : Value) : Prop
  | vectorInteger {elt : ScalarType} (harg : arg.type = .vector state.vector_n elt)
      (hkind : state.conversion_specifier.kind = .integer)
      (harg' : arg'.type = .vector state.vector_n (.int (integerBits state)))
  | vectorFloating {elt : ScalarType} (harg : arg.type = .vector state.vector_n elt)
      (hkind : state.conversion_specifier.kind = .floating)
      (harg' : arg'.type = .vector state.vector_n .float)
  | intInteger {bits : ℕ} (harg : arg.type = .scalar (.int bits))
      (hkind : state.conversion_specifier.kind = .integer)
      (harg' : arg'.type = .scalar (.int (integerBits state)))
  | intCharacter {bits : ℕ} (harg : arg.type = .scalar (.int bits))
      (hkind : state.conversion_specifier.kind = .character)
      (harg' : arg'.type = .scalar (.int 8))
  | intFloating {bits : ℕ} (harg : arg.type = .scalar (.int bits))
      (hkind : state.conversion_specifier.kind = .floating)
      (harg' : arg'.type = .scalar .float)
  | intString {bits : ℕ} (harg : arg.type = .scalar (.int bits))
      (hkind : state.conversion_specifier.kind = .str) (harg' : arg' = arg)
  | floatInteger (harg : arg.type = .scalar .float ∨ arg.type = .scalar .double)
      (hkind : state.conversion_specifier.kind = .integer)
      (harg' : arg'.type = .scalar (.int 32))
  | floatFloating (harg : arg.type = .scalar .float ∨ arg.type = .scalar .double)
      (hkind : state.conversion_specifier.kind = .floating)
      (harg' : arg'.type = .scalar .float)
  | pointerString (harg : arg.type = .scalar .pointer)
      (hkind : state.conversion_specifier.kind = .str) (hstr : arg.cString.isSome)
      (harg' : arg' = arg)
  | pointerPointer (harg : arg.type = .scalar .pointer)
      (hkind : state.conversion_specifier.kind = .pointer)
      (harg' : arg'.type = .scalar (.int 32))

/-- A conversion keeps all of a state but the string that it records. -/
def Records (state state' : PrintfState) : Prop := ∃ str, state' = { state with str := str }

variable {state state' : PrintfState} {arg arg' : Value}

theorem Records.refl (state : PrintfState) : Records state state := ⟨state.str, rfl⟩

theorem generateVectorParameter_passes {n : ℕ} {elt : ScalarType} (harg : arg.type = .vector n elt)
    (h : generateVectorParameter B state arg n elt = some (state', arg')) :
    Records state state' ∧ Passes state arg arg' := by
  unfold generateVectorParameter at h
  split at h
  · simp at h
  · rename_i hn
    obtain rfl : n = state.vector_n := not_not.mp hn
    split at h
    · rename_i bits hkind
      split at h
      · simp only [Option.some.injEq, Prod.mk.injEq] at h
        obtain ⟨rfl, rfl⟩ := h
        exact ⟨Records.refl _, .vectorInteger harg hkind (type_convertElements _ _ _ _)⟩
      · rename_i hbits
        simp only [Option.some.injEq, Prod.mk.injEq] at h
        obtain ⟨rfl, rfl⟩ := h
        rw [not_not.mp hbits] at harg
        exact ⟨Records.refl _, .vectorInteger harg hkind harg⟩
    · rename_i hkind
      simp only [Option.some.injEq, Prod.mk.injEq] at h
      obtain ⟨rfl, rfl⟩ := h
      exact ⟨Records.refl _, .vectorFloating harg hkind harg⟩
    · rename_i hkind
      simp only [Option.some.injEq, Prod.mk.injEq] at h
      obtain ⟨rfl, rfl⟩ := h
      exact ⟨Records.refl _, .vectorFloating harg hkind (type_convertElements _ _ _ _)⟩
    · simp at h

theorem generateIntegerParameter_passes {bits : ℕ} (harg : arg.type = .scalar (.int bits))
    (h : generateIntegerParameter B state arg bits = some (state', arg')) :
    Records state state' ∧ Passes state arg arg' := by
  unfold generateIntegerParameter at h
  split at h
  · rename_i hkind
    split at h
    · simp only [Option.some.injEq, Prod.mk.injEq] at h
      obtain ⟨rfl, rfl⟩ := h
      exact ⟨Records.refl _, .intInteger harg hkind (B.type_cast _ _ _)⟩
    · rename_i hbits
      simp only [Option.some.injEq, Prod.mk.injEq] at h
      obtain ⟨rfl, rfl⟩ := h
      rw [not_not.mp hbits] at harg
      exact ⟨Records.refl _, .intInteger harg hkind harg⟩
  · rename_i hkind
    simp only [Option.some.injEq, Prod.mk.injEq] at h
    obtain ⟨rfl, rfl⟩ := h
    exact ⟨Records.refl _, .intCharacter harg hkind (B.type_cast _ _ _)⟩
  · rename_i hkind
    simp only [Option.some.injEq, Prod.mk.injEq] at h
    obtain ⟨rfl, rfl⟩ := h
    exact ⟨Records.refl _, .intFloating harg hkind (B.type_cast _ _ _)⟩
  · rename_i hkind
    simp only [Option.some.injEq, Prod.mk.injEq] at h
    obtain ⟨rfl, rfl⟩ := h
    exact ⟨⟨_, rfl⟩, .intString harg hkind rfl⟩
  · simp at h

theorem generateFloatParameter_passes
    (harg : arg.type = .scalar .float ∨ arg.type = .scalar .double)
    (h : generateFloatParameter B state arg = some (state', arg')) :
    Records state state' ∧ Passes state arg arg' := by
  unfold generateFloatParameter at h
  split at h
  · rename_i hkind
    simp only [Option.some.injEq, Prod.mk.injEq] at h
    obtain ⟨rfl, rfl⟩ := h
    exact ⟨Records.refl _, .floatInteger harg hkind (B.type_cast _ _ _)⟩
  · rename_i hkind
    simp only [Option.some.injEq, Prod.mk.injEq] at h
    obtain ⟨rfl, rfl⟩ := h
    exact ⟨Records.refl _, .floatFloating harg hkind (B.type_cast _ _ _)⟩
  · simp at h

theorem generatePointerParameter_passes (harg : arg.type = .scalar .pointer)
    (h : generatePointerParameter B state arg = some (state', arg')) :
    Records state state' ∧ Passes state arg arg' := by
  unfold generatePointerParameter at h
  split at h
  · rename_i hkind
    obtain ⟨str, hstr, heq⟩ := Option.map_eq_some_iff.mp h
    simp only [Prod.mk.injEq] at heq
    obtain ⟨rfl, rfl⟩ := heq
    exact ⟨⟨str, rfl⟩, .pointerString harg hkind (by rw [hstr]; rfl) rfl⟩
  · rename_i hkind
    simp only [Option.some.injEq, Prod.mk.injEq] at h
    obtain ⟨rfl, rfl⟩ := h
    exact ⟨Records.refl _, .pointerPointer harg hkind (B.type_cast _ _ _)⟩
  · simp at h

theorem generateOneParameterInst_passes
    (h : generateOneParameterInst B state arg = some (state', arg')) :
    Records state state' ∧ Passes state arg arg' := by
  unfold generateOneParameterInst at h
  split at h
  · rename_i hty
    exact generateVectorParameter_passes hty h
  · rename_i hty
    exact generateIntegerParameter_passes hty h
  · rename_i hty
    exact generateFloatParameter_passes (.inr hty) h
  · rename_i hty
    exact generateFloatParameter_passes (.inl hty) h
  · rename_i hty
    exact generatePointerParameter_passes hty h
  · simp at h
  · simp at h

/-- The states that are printed and the arguments that are passed on, one pair for each
conversion and its argument. -/
theorem convertArgs_pairs {fmt fmt' : List PrintfSlot} {args args' : List Value}
    (h : convertArgs B fmt args = some (fmt', args')) (hlen : (states fmt).length = args.length) :
    ∃ pairs, List.Forall₂ (fun p q => generateOneParameterInst B p.1 p.2 = some q)
        ((states fmt).zip args) pairs ∧
      states fmt' = pairs.map Prod.fst ∧ args' = pairs.map Prod.snd := by
  induction fmt generalizing args fmt' args' with
  | nil =>
    simp only [convertArgs, Option.some.injEq, Prod.mk.injEq] at h
    obtain ⟨rfl, rfl⟩ := h
    exact ⟨[], .nil, rfl, rfl⟩
  | cons slot fmt ih =>
    cases slot with
    | string s =>
      obtain ⟨⟨fmt1, args1⟩, hrest, heq⟩ := Option.map_eq_some_iff.mp h
      simp only [Prod.mk.injEq] at heq
      obtain ⟨rfl, rfl⟩ := heq
      obtain ⟨pairs, hall, hstates, hargs⟩ := ih hrest hlen
      exact ⟨pairs, hall, hstates, hargs⟩
    | state st =>
      cases args with
      | nil => simp [states] at hlen
      | cons arg args =>
        simp only [convertArgs] at h
        split at h
        · simp at h
        · rename_i st' arg' hone
          obtain ⟨⟨fmt1, args1⟩, hrest, heq⟩ := Option.map_eq_some_iff.mp h
          simp only [Prod.mk.injEq] at heq
          obtain ⟨rfl, rfl⟩ := heq
          obtain ⟨pairs, hall, hstates, hargs⟩ := ih hrest (by simpa [states] using hlen)
          refine ⟨(st', arg') :: pairs, .cons hone hall, ?_, ?_⟩
          · simp [states, hstates]
          · simp [hargs]

end

/-- The builder on values that are no constants: what it makes is no constant either. -/
def instructionBuilder : Builder where
  cast _ _ type := ⟨.scalar type, none⟩
  extractElement arg _ :=
    match arg.type with
    | .vector _ elt => ⟨.scalar elt, none⟩
    | .scalar t => ⟨.scalar t, none⟩
  insertElement vec _ _ := ⟨vec.type, none⟩
  undef type := ⟨type, none⟩
  type_cast _ _ _ := rfl
  type_insertElement _ _ _ := rfl
  type_undef _ := rfl

end PrintfParser

end Llvm
