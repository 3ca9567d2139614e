/-
The device side of `printf`: the sources of the PRINTF instruction (`llvm_gen_backend.cpp`), its
selection (`PrintfInstructionPattern` of `gen_insn_selection.cpp`) and the code that writes the
record of a work-item (`emitPrintfInstruction` of `gen_context.cpp`).

A source is an element of an argument.  The writes of one lane are listed with their addresses,
from the place on that the atomic addition has reserved for the record.

* `emitPrintf_selectChunks` — the instructions write the header once, then all of the sources.
* `foldl_emitSource_writes` — the sources are written one after another.
* `ofAddress_memory` — the log that the host finds at the start of a record.
-/
import Beignet.Backend.Selection
import Beignet.Llvm.PrintfParser

namespace Backend

namespace Printf

open Llvm.PrintfParser

/-! ### The sources of the instruction -/

/-- The types of `ir::Type` that an LLVM type can be given. -/
inductive IrType where
  | BOOL | S8 | S16 | S32 | S64 | U32 | U64 | HALF | FLOAT | DOUBLE | LARGE_INT
  deriving DecidableEq

/-- `none` where the assertion that the type is a scalar fails. -/
def getType (pointer64 : Bool) : ScalarType → Option IrType
  | .float => some .FLOAT
  | .half => some .HALF
  | .double => some .DOUBLE
  | .pointer => some (if pointer64 then .U64 else .U32)
  | .int 1 => some .BOOL
  | .int 8 => some .S8
  | .int 16 => some .S16
  | .int 32 => some .S32
  | .int 64 => some .S64
  | .int _ => some .LARGE_INT
  | .other => none

/-- The register of element `key.2` of argument `key.1`, with its type. -/
structure Source (T : Type) where
  key : ℕ × ℕ
  type : T

/-- The sources of argument `n`: none for a string, which is recorded and not passed. -/
def argSources (pointer64 : Bool) (n : ℕ) (arg : Value) : Option (List (Source IrType)) :=
  if arg.cString.isSome then some []
  else
    match arg.type with
    | .vector srcElemNum elt =>
      match getType pointer64 elt with
      | none => none
      | some type =>
        if type = .DOUBLE then none
        else some ((List.range srcElemNum).map fun elemID => ⟨(n, elemID), type⟩)
    | .scalar s => (getType pointer64 s).map fun type => [⟨(n, 0), type⟩]

def tupleFrom (pointer64 : Bool) : ℕ → List Value → Option (List (Source IrType))
  | _, [] => some []
  | n, arg :: args =>
    match argSources pointer64 n arg, tupleFrom pointer64 (n + 1) args with
    | some srcs, some rest => some (srcs ++ rest)
    | _, _ => none

/-- The PRINTF instruction: `srcNum` has 8 bits and `num` has 16. -/
structure PrintfInstruction where
  srcNum : ℕ
  num : ℕ
  tuple : List (Source IrType)

def PRINTF (tuple : List (Source IrType)) (num : ℕ) : PrintfInstruction :=
  ⟨tuple.length % 2 ^ 8, num % 2 ^ 16, tuple⟩

/-! ### Selection -/

def getGenType : IrType → Option GenType
  | .BOOL => some .W
  | .S8 => some .B
  | .S16 => some .W
  | .S32 => some .D
  | .U32 => some .UD
  | .S64 => some .L
  | .U64 => some .UL
  | .FLOAT => some .F
  | .DOUBLE => some .DF
  | .HALF => some .HF
  | .LARGE_INT => none

def sourceSize (type : IrType) : ℕ :=
  if type = .DOUBLE ∨ type = .S64 ∨ type = .U64 then 8 else 4

def totalSize (srcs : List (Source IrType)) : ℕ := (srcs.map fun s => sourceSize s.type).sum

/-- `selReg`, which gives the register the type's GEN type. -/
def selReg (src : Source IrType) : Option (Source GenType) :=
  (getGenType src.type).map fun type => ⟨src.key, type⟩

/-- The selected instruction, with its extra fields. -/
structure SelPrintf where
  srcs : List (Source GenType)
  printfNum : ℕ
  continueFlag : Bool
  printfSize : ℕ

/-- The do-while loop, eight sources at a time. -/
def selectChunks (num size : ℕ) : ℕ → Bool → List (Source GenType) → List SelPrintf
  | 0, _, _ => []
  | fuel + 1, isContinue, srcs =>
    ⟨srcs.take 8, num, isContinue, size % 2 ^ 16⟩ ::
      if srcs.length > 8 then selectChunks num size fuel true (srcs.drop 8) else []

/-- The selected instructions.  Without sources there is one, as in a loop that is entered with
an empty list. -/
def selectPrintf (insn : PrintfInstruction) : Option (List SelPrintf) :=
  let srcs := insn.tuple.take insn.srcNum
  (srcs.mapM selReg).map fun regs =>
    selectChunks insn.num (totalSize srcs) (srcs.length + 1) false regs

/-! ### Emission -/

/-- The dwords that are written: immediates, and the halves of the sources. -/
inductive Word where
  | imm (value : ℕ)
  | src (key : ℕ × ℕ) (half : ℕ)

/-- The `addr` register of a lane and the dwords that it has written. -/
structure Emit where
  addr : ℕ
  writes : List (ℕ × Word)

/-- UNTYPED_WRITE of the `data` register at `addr`, and the ADD after it. -/
def Emit.untypedWrite (e : Emit) (word : Word) : Emit :=
  ⟨e.addr + 4, e.writes ++ [(e.addr, word)]⟩

def emitPrintfLongInstruction (e : Emit) (key : ℕ × ℕ) : Emit :=
  (e.untypedWrite (.src key 0)).untypedWrite (.src key 1)

/-- One source.  A type that is in none of the tests is not written. -/
def emitSource (e : Emit) (src : Source GenType) : Emit :=
  if src.type = .UD ∨ src.type = .D ∨ src.type = .F then e.untypedWrite (.src src.key 0)
  else if src.type = .B ∨ src.type = .UB then e.untypedWrite (.src src.key 0)
  else if src.type = .L ∨ src.type = .UL then emitPrintfLongInstruction e src.key
  else e

/-- The `base` is what the atomic addition of the announced size returns. -/
def emitPrintfInstruction (base : ℕ) (e : Emit) (insn : SelPrintf) : Emit :=
  let e :=
    if insn.continueFlag then e
    else
      ((Emit.untypedWrite ⟨base, e.writes⟩ (.imm Ir.Printf.magicNumber)).untypedWrite
        (.imm (insn.printfSize + 12))).untypedWrite (.imm insn.printfNum)
  insn.srcs.foldl emitSource e

/-- The record of a work-item: all the selected instructions of the statement. -/
def emitPrintf (base : ℕ) (insns : List SelPrintf) : Emit :=
  insns.foldl (emitPrintfInstruction base) ⟨base, []⟩

/-- The memory that the writes leave, where the sources hold `data`. -/
def Word.value (data : ℕ × ℕ → ℕ → ℕ) : Word → ℕ
  | .imm value => value
  | .src key half => data key half

def Emit.memory (e : Emit) (data : ℕ × ℕ → ℕ → ℕ) (mem : Ir.Printf.Memory) : Ir.Printf.Memory :=
  e.writes.foldl (fun mem w => Function.update mem w.1 (w.2.value data)) mem

def wordBytes (key : ℕ × ℕ) : ℕ × Word → List ℕ
  | (_, .imm _) => []
  | (addr, .src k _) => if k = key then List.range' addr 4 else []

/-- The bytes that a source is written to. -/
def Emit.bytes (e : Emit) (key : ℕ × ℕ) : List ℕ := e.writes.flatMap (wordBytes key)

/-! ### What is written -/

/-- The bytes that `emitSource` writes for a type. -/
def storedSize : GenType → ℕ
  | .UD | .D | .F | .B | .UB => 4
  | .L | .UL => 8
  | _ => 0

/-- What a piece of the emission writes behind what is there: the items, one after another. -/
structure Writes (e e' : Emit) (items : List ((ℕ × ℕ) × ℕ)) : Prop where
  addr : e'.addr = e.addr + Fields.total items
  length : 4 * e'.writes.length = 4 * e.writes.length + Fields.total items
  bytes : ∀ key, e'.bytes key = e.bytes key ++ Fields.bytes (Fields.place e.addr items) key
  behind : ∃ l, e'.writes = e.writes ++ l ∧ ∀ w ∈ l, e.addr ≤ w.1

theorem Writes.refl (e : Emit) : Writes e e [] :=
  ⟨rfl, rfl, fun key => by simp [Fields.bytes, Fields.place], [], by simp, by simp⟩

theorem Writes.trans {e e' e'' : Emit} {l l' : List ((ℕ × ℕ) × ℕ)} (h : Writes e e' l)
    (h' : Writes e' e'' l') : Writes e e'' (l ++ l') := by
  refine ⟨?_, ?_, fun key => ?_, ?_⟩
  · rw [h'.addr, h.addr, Fields.total_append, Nat.add_assoc]
  · rw [h'.length, h.length, Fields.total_append, Nat.add_assoc]
  · rw [h'.bytes, h.bytes, h.addr, Fields.place_append, Fields.bytes, Fields.bytes, Fields.bytes,
      List.flatMap_append, List.append_assoc]
  · obtain ⟨w, hw, hle⟩ := h.behind
    obtain ⟨w', hw', hle'⟩ := h'.behind
    refine ⟨w ++ w', by rw [hw', hw, List.append_assoc], fun x hx => ?_⟩
    rcases List.mem_append.mp hx with hx | hx
    · exact hle x hx
    · have := hle' x hx
      have := h.addr
      omega

theorem untypedWrite_src (e : Emit) (key : ℕ × ℕ) (half : ℕ) :
    Writes e (e.untypedWrite (.src key half)) [(key, 4)] := by
  refine ⟨rfl, ?_, fun k => ?_, [(e.addr, .src key half)], rfl, by simp⟩
  · simp [Emit.untypedWrite, Fields.total, Nat.mul_add]
  · simp [Emit.bytes, Emit.untypedWrite, wordBytes, Fields.bytes, Fields.place]

/-- Two halves of a source, one behind the other, are one item of eight bytes. -/
theorem emitPrintfLongInstruction_writes (e : Emit) (key : ℕ × ℕ) :
    Writes e (emitPrintfLongInstruction e key) [(key, 8)] := by
  have h := (untypedWrite_src e key 0).trans (untypedWrite_src _ key 1)
  refine ⟨h.addr, h.length, fun k => ?_, h.behind⟩
  rw [emitPrintfLongInstruction, h.bytes]
  by_cases hk : key = k
  · simp [Fields.bytes, Fields.place, hk, List.range'_append_1]
  · simp [Fields.bytes, Fields.place, hk]

theorem emitSource_writes (e : Emit) (src : Source GenType) :
    Writes e (emitSource e src) [(src.key, storedSize src.type)] := by
  have hnone : Writes e e [(src.key, 0)] :=
    ⟨rfl, rfl, fun k => by simp [Fields.bytes, Fields.place], [], by simp, by simp⟩
  obtain ⟨key, type⟩ := src
  cases type with
  | UD | D | F | B | UB => exact untypedWrite_src e key 0
  | L | UL => exact emitPrintfLongInstruction_writes e key
  | _ => exact hnone

/-- The items that the sources are written as. -/
def stored (srcs : List (Source GenType)) : List ((ℕ × ℕ) × ℕ) :=
  srcs.map fun s => (s.key, storedSize s.type)

theorem foldl_emitSource_writes (e : Emit) (srcs : List (Source GenType)) :
    Writes e (srcs.foldl emitSource e) (stored srcs) := by
  induction srcs generalizing e with
  | nil => exact .refl e
  | cons src srcs ih => exact (emitSource_writes e src).trans (ih _)

/-! ### The chunks -/

theorem selectChunks_continue (num size : ℕ) {fuel : ℕ} {srcs : List (Source GenType)}
    (h : srcs.length < fuel) (base : ℕ) (e : Emit) :
    (selectChunks num size fuel true srcs).foldl (emitPrintfInstruction base) e =
      srcs.foldl emitSource e := by
  induction fuel generalizing srcs e with
  | zero => omega
  | succ fuel ih =>
    rw [selectChunks, List.foldl_cons]
    show List.foldl _ ((srcs.take 8).foldl emitSource e) _ = _
    split
    · rename_i hlen
      rw [ih (by rw [List.length_drop]; omega), ← List.foldl_append, List.take_append_drop]
    · rename_i hlen
      rw [List.foldl_nil, List.take_of_length_le (Nat.le_of_not_lt hlen)]

/-- The header of a record. -/
def header (base size num : ℕ) : Emit :=
  ((Emit.untypedWrite ⟨base, []⟩ (.imm Ir.Printf.magicNumber)).untypedWrite
    (.imm (size + 12))).untypedWrite (.imm num)

/-- The instructions write the header once and all of the sources after it. -/
theorem emitPrintf_selectChunks (num size base : ℕ) (srcs : List (Source GenType)) :
    emitPrintf base (selectChunks num size (srcs.length + 1) false srcs) =
      srcs.foldl emitSource (header base (size % 2 ^ 16) num) := by
  rw [emitPrintf, selectChunks, List.foldl_cons]
  show List.foldl _ ((srcs.take 8).foldl emitSource (header base (size % 2 ^ 16) num)) _ = _
  split
  · rename_i hlen
    rw [selectChunks_continue num size (by rw [List.length_drop]; omega), ← List.foldl_append,
      List.take_append_drop]
  · rename_i hlen
    rw [List.foldl_nil, List.take_of_length_le (Nat.le_of_not_lt hlen)]

/-! ### The log -/

theorem memory_of_behind (data : ℕ × ℕ → ℕ → ℕ) {a : ℕ} {l : List (ℕ × Word)}
    (h : ∀ w ∈ l, a < w.1) (mem : Ir.Printf.Memory) :
    l.foldl (fun mem w => Function.update mem w.1 (w.2.value data)) mem a = mem a := by
  induction l generalizing mem with
  | nil => rfl
  | cons w l ih =>
    have hne : a ≠ w.1 := (h w List.mem_cons_self).ne
    rw [List.foldl_cons, ih fun x hx => h x (List.mem_cons_of_mem _ hx),
      Function.update_of_ne hne]

/-- What the host finds at the start of a record. -/
theorem ofAddress_memory {base size num : ℕ} {e : Emit} {items : List ((ℕ × ℕ) × ℕ)}
    (h : Writes (header base size num) e items) (data : ℕ × ℕ → ℕ → ℕ)
    (mem : Ir.Printf.Memory) :
    Ir.Printf.PrintfLog.ofAddress (e.memory data mem) base =
      ⟨Ir.Printf.magicNumber, size + 12, num, base + 12⟩ := by
  obtain ⟨l, hl, hle⟩ := h.behind
  have hbehind : ∀ a < base + 12,
      e.memory data mem a = (header base size num).memory data mem a := by
    intro a ha
    rw [Emit.memory, hl, List.foldl_append]
    refine memory_of_behind data (fun w hw => ?_) _
    have : base + 4 + 4 + 4 ≤ w.1 := hle w hw
    omega
  simp only [Ir.Printf.PrintfLog.ofAddress, hbehind base (by omega), hbehind (base + 4) (by omega),
    hbehind (base + 8) (by omega)]
  simp [Emit.memory, header, Emit.untypedWrite, Word.value, Nat.add_assoc]

end Printf

end Backend
