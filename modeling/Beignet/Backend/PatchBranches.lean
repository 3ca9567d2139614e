/-
Branch patching: `GenContext::patchBranches` (`gen_context.cpp`), `Gen8Context::patchBranches`
(`gen8_context.cpp`) and the three versions of `patchJMPI` (`gen_encoder.cpp`,
`gen75_encoder.cpp`, `gen8_encoder.cpp`).

Positions count units of eight bytes in the instruction store; an instruction that is patched
takes two of them.  Of an instruction the fields that patching reads or writes are kept:
`bits3` holds the immediate (or the offsets `jip` and `uip` of 16 bits each), `bits2` the `uip`
of Gen8.  An access to a label that is not there is undefined on Gen8; on Gen7 and Gen7.5 the
branch is passed over.

* `Pending.patchBranches` — the pass.
* `Pending.Sound` — every branch goes where its label is, or the pass fails.
* `Pending.Fit` — when that is so (`Pending.patchBranches_sound_iff`).
-/
import Mathlib

namespace Backend

namespace Patch

/-! ### Instructions -/

inductive Generation where
  | gen7 | gen75 | gen8
  deriving DecidableEq

inductive Opcode where
  | JMPI | BRD | BRC | IF | ELSE | ENDIF | WHILE | ADD | NOP
  /-- any other one -/
  | other
  deriving DecidableEq

/-- A native instruction, as far as branches go. -/
structure Insn where
  opcode : Opcode
  /-- `predicate_control != GEN_PREDICATE_NONE` -/
  predicated : Bool
  predicate_inverse : Bool
  /-- destination and first source are the instruction pointer -/
  ip : Bool
  bits2 : BitVec 32
  bits3 : BitVec 32

/-- The instruction that starts at a position. -/
abbrev Store := BitVec 32 → Insn

/-! ### patchJMPI -/

/-- The distance to the instruction behind an `ELSE` that a `WHILE` goes back to. -/
def whileDistance (store : Store) (insnID jip : BitVec 32) : BitVec 32 :=
  if (store insnID).opcode = .WHILE ∧ (store (insnID + jip)).opcode = .ELSE then jip + 2 else jip

/-- `(jip & 0xffff) | uip << 16` -/
def offsets (jip uip : BitVec 32) : BitVec 32 := (jip &&& 0xffff#32) ||| (uip <<< 16)

/-- `jip > -32769 && jip < 32768` -/
def isShort (jip : BitVec 32) : Bool := -32769 < jip.toInt && jip.toInt < 32768

/-- `GenEncoder::patchJMPI` -/
def patchJMPI7 (store : Store) (insnID jip uip : BitVec 32) : Store :=
  let insn := store insnID
  let jip := whileDistance store insnID jip
  if insn.opcode ≠ .JMPI ∨ isShort jip then
    let jip :=
      match insn.opcode with
      | .JMPI => jip - 2
      | .ENDIF => jip + 2
      | _ => jip
    Function.update store insnID { insn with bits3 := offsets jip uip }
  else if !insn.predicated then
    Function.update store insnID { insn with opcode := .ADD, ip := true, bits3 := jip * 8 }
  else
    -- the inverted jump skips an addition to the instruction pointer
    let insn2 := store (insnID + 2)
    Function.update
      (Function.update store insnID
        { insn with predicate_inverse := !insn.predicate_inverse, bits3 := 2 })
      (insnID + 2)
      { insn2 with predicated := false, opcode := .ADD, ip := true, bits3 := (jip - 2) * 8 }

/-- `Gen75Encoder::patchJMPI` -/
def patchJMPI75 (store : Store) (insnID jip uip : BitVec 32) : Store :=
  let insn := store insnID
  let jip := whileDistance store insnID jip
  Function.update store insnID
    { insn with bits3 := if insn.opcode ≠ .JMPI then offsets jip uip else (jip - 2) * 8 }

/-- `Gen8Encoder::patchJMPI` -/
def patchJMPI8 (store : Store) (insnID jip uip : BitVec 32) : Store :=
  let insn := store insnID
  let jip := whileDistance store insnID jip
  let uip := if insn.opcode = .ELSE then jip else uip
  Function.update store insnID <|
    if insn.opcode = .IF ∨ insn.opcode = .ELSE then
      { insn with bits2 := uip * 8, bits3 := jip * 8 }
    else if insn.opcode = .JMPI then { insn with bits3 := (jip - 2) * 8 }
    else { insn with bits3 := jip * 8 }

def patchJMPI : Generation → Store → BitVec 32 → BitVec 32 → BitVec 32 → Store
  | .gen7 => patchJMPI7
  | .gen75 => patchJMPI75
  | .gen8 => patchJMPI8

/-! ### patchBranches -/

inductive ErrCode where
  | NO_ERROR | OUT_OF_RANGE_IF_ENDIF

/-- What `patchBranches` leaves. -/
structure Result where
  store : Store
  returned : Bool
  errCode : ErrCode

/-- The branches that wait to be patched.  Each is a branch of its own, entered when it was
emitted, and a jump of Gen7 that is out of the short range has its `NOP` behind it; `patchJMPI`
asserts both. -/
structure Pending (gen : Generation) where
  store : Store
  labelPos : ℕ → Option (BitVec 32)
  branchPos2 : List (ℕ × BitVec 32)
  branchPos3 : List ((ℕ × ℕ) × BitVec 32)
  opcode_branchPos2 : ∀ b ∈ branchPos2,
    (store b.2).opcode ∈ [.JMPI, .BRD, .ELSE, .ENDIF, .WHILE]
  opcode_branchPos3 : ∀ b ∈ branchPos3, (store b.2).opcode ∈ [.IF, .BRC]
  nodup : (branchPos2.map Prod.snd ++ branchPos3.map Prod.snd).Nodup
  nop : gen = .gen7 → ∀ b ∈ branchPos2, (store b.2).opcode = .JMPI →
    ∀ pos, labelPos b.1 = some pos → isShort (pos - b.2) = false →
      (store (b.2 + 2)).opcode = .NOP

section Loops

variable (gen : Generation) (labelPos : ℕ → Option (BitVec 32))

/-- One branch of the first loop. -/
def patch2 (store : Store) (b : ℕ × BitVec 32) : Store :=
  match labelPos b.1 with
  | some targetID => patchJMPI gen store b.2 (targetID - b.2) 0
  | none => store

/-- The range test of the second loop.  The position of the branch is unsigned, so both
comparisons are, and `-32768` stands for `2 ^ 32 - 32768`. -/
def outOfRange (insn_id jip uip : BitVec 32) : Bool :=
  (((jip - insn_id).toNat > 32767 || (jip - insn_id).toNat < 2 ^ 32 - 32768) ||
    ((uip - insn_id).toNat > 32768 || (uip - insn_id).toNat < 2 ^ 32 - 32768))

/-- The second loop. -/
def patch3 (store : Store) : List ((ℕ × ℕ) × BitVec 32) → Result
  | [] => ⟨store, true, .NO_ERROR⟩
  | b :: rest =>
    match labelPos b.1.1, labelPos b.1.2 with
    | some jip, some uip =>
      if outOfRange b.2 jip uip then ⟨store, false, .OUT_OF_RANGE_IF_ENDIF⟩
      else patch3 (patchJMPI gen store b.2 (jip - b.2) (uip - b.2)) rest
    | _, _ => patch3 store rest

end Loops

namespace Pending

/-- The labels that the branches name. -/
def labels {gen : Generation} (p : Pending gen) : List ℕ :=
  p.branchPos2.map Prod.fst ++ p.branchPos3.flatMap fun b => [b.1.1, b.1.2]

/-- `GenContext::patchBranches`, without errors so far. -/
def patchBranches7 {gen : Generation} (p : Pending gen) : Result :=
  patch3 gen p.labelPos (p.branchPos2.foldl (patch2 gen p.labelPos) p.store) p.branchPos3

/-- One branch of the second loop on Gen8. -/
def patch38 {gen : Generation} (p : Pending gen) (store : Store) (b : (ℕ × ℕ) × BitVec 32) :
    Store :=
  match p.labelPos b.1.1, p.labelPos b.1.2 with
  | some jip, some uip => patchJMPI gen store b.2 (jip - b.2) (uip - b.2)
  | _, _ => store

/-- `Gen8Context::patchBranches`; undefined when a label is not there. -/
def patchBranches8 {gen : Generation} (p : Pending gen) : Option Result :=
  if p.labels.all fun l => (p.labelPos l).isSome then
    some ⟨p.branchPos3.foldl p.patch38 (p.branchPos2.foldl (patch2 gen p.labelPos) p.store), true,
      .NO_ERROR⟩
  else none

def patchBranches {gen : Generation} (p : Pending gen) : Option Result :=
  match gen with
  | .gen7 | .gen75 => some p.patchBranches7
  | .gen8 => p.patchBranches8

end Pending

/-! ### Where branches go -/

/-- A `jip` or `uip` of 16 bits. -/
def low (bits : BitVec 32) : ℤ := (bits.extractLsb' 0 16).toInt
def high (bits : BitVec 32) : ℤ := (bits.extractLsb' 16 16).toInt

/-- The branch at `base` goes to `target` when it is taken.  A jump counts from the next
instruction, any other branch and an addition to the instruction pointer from itself. -/
def Goes (gen : Generation) (base : ℤ) (insn : Insn) (target : ℤ) : Prop :=
  match insn.opcode with
  | .JMPI =>
    match gen with
    | .gen7 => target = base + 2 + low insn.bits3
    | .gen75 | .gen8 => 8 * (target - (base + 2)) = insn.bits3.toInt
  | .ADD => insn.ip = true ∧ 8 * (target - base) = insn.bits3.toInt
  | _ =>
    match gen with
    | .gen7 | .gen75 => target = base + low insn.bits3
    | .gen8 => 8 * (target - base) = insn.bits3.toInt

/-- The `uip` of the branch at `base` is `target`. -/
def GoesUip (gen : Generation) (base : ℤ) (insn : Insn) (target : ℤ) : Prop :=
  match gen with
  | .gen7 | .gen75 => target = base + high insn.bits3
  | .gen8 => 8 * (target - base) = insn.bits2.toInt

/-- After patching, the branch at `insnID` goes to `target` under its old predicate.  If that
was inverted, the branch skips an unpredicated addition that goes there. -/
def Jumps (gen : Generation) (before after : Store) (insnID : BitVec 32) (target : ℤ) : Prop :=
  if (after insnID).predicate_inverse = (before insnID).predicate_inverse then
    Goes gen insnID.toNat (after insnID) target
  else
    Goes gen insnID.toNat (after insnID) (insnID.toNat + 4) ∧
      (after (insnID + 2)).opcode = .ADD ∧ (after (insnID + 2)).predicated = false ∧
      Goes gen (insnID.toNat + 2) (after (insnID + 2)) target

/-- The adjustment that is meant: behind the `ELSE` that a `WHILE` goes back to, and behind the
label for an `ENDIF` of Gen7. -/
def adjustment (gen : Generation) (store : Store) (insnID pos : BitVec 32) : ℤ :=
  if (store insnID).opcode = .WHILE ∧ (store pos).opcode = .ELSE then 2
  else if gen = .gen7 ∧ (store insnID).opcode = .ENDIF then 2
  else 0

namespace Pending

variable {gen : Generation} (p : Pending gen)

/-- The branch goes to its label. -/
def Correct2 (after : Store) (b : ℕ × BitVec 32) : Prop :=
  ∃ pos, p.labelPos b.1 = some pos ∧
    Jumps gen p.store after b.2 (pos.toNat + adjustment gen p.store b.2 pos) ∧
    (gen = .gen8 → (p.store b.2).opcode = .ELSE → GoesUip gen b.2.toNat (after b.2) pos.toNat)

/-- The branch goes to both of its labels. -/
def Correct3 (after : Store) (b : (ℕ × ℕ) × BitVec 32) : Prop :=
  ∃ jip uip, p.labelPos b.1.1 = some jip ∧ p.labelPos b.1.2 = some uip ∧
    Jumps gen p.store after b.2 jip.toNat ∧ GoesUip gen b.2.toNat (after b.2) uip.toNat

/-- `patchBranches` patches every branch right, or fails with an error. -/
def Sound : Prop :=
  ∃ r, p.patchBranches = some r ∧
    (r.returned = true →
      (∀ b ∈ p.branchPos2, p.Correct2 r.store b) ∧ ∀ b ∈ p.branchPos3, p.Correct3 r.store b) ∧
    (r.returned = false → r.errCode ≠ .NO_ERROR)

/-! ### What fits -/

end Pending

/-- The number fits in a signed field. -/
def Fits (bits : ℕ) (n : ℤ) : Prop := -2 ^ (bits - 1) ≤ n ∧ n < 2 ^ (bits - 1)

/-- The distance, adjustment included, fits in the field of the branch.  A jump of Gen7 in the
short range needs two units more towards the front. -/
def FitsJump (gen : Generation) (store : Store) (insnID pos : BitVec 32) : Prop :=
  let n : ℤ := pos.toNat - insnID.toNat + adjustment gen store insnID pos
  if (store insnID).opcode = .JMPI then
    match gen with
    | .gen7 =>
      (Fits 16 n ∧ Fits 16 (n - 2)) ∨
        (¬ Fits 16 n ∧ Fits 32 (8 * if (store insnID).predicated then n - 2 else n))
    | .gen75 | .gen8 => Fits 32 (8 * (n - 2))
  else
    match gen with
    | .gen7 | .gen75 => Fits 16 n
    | .gen8 => Fits 32 (8 * n)

/-- The `uip` of Gen8 fits; `BRC` keeps the one it has. -/
def FitsUip (store : Store) (insnID uip : BitVec 32) : Prop :=
  let n : ℤ := 8 * (uip.toNat - insnID.toNat)
  if (store insnID).opcode = .IF then Fits 32 n else (store insnID).bits2.toInt = n

/-- When `patchBranches` is sound. -/
def Pending.Fit {gen : Generation} (p : Pending gen) : Prop :=
  let fit2 := ∀ b ∈ p.branchPos2, ∃ pos, p.labelPos b.1 = some pos ∧
    FitsJump gen p.store b.2 pos
  match gen with
  | .gen7 | .gen75 =>
    (∃ b ∈ p.branchPos3, (p.labelPos b.1.1).isSome ∧ (p.labelPos b.1.2).isSome) ∨
      (p.branchPos3 = [] ∧ fit2)
  | .gen8 => fit2 ∧ ∀ b ∈ p.branchPos3, ∃ jip uip, p.labelPos b.1.1 = some jip ∧
      p.labelPos b.1.2 = some uip ∧ FitsJump gen p.store b.2 jip ∧ FitsUip p.store b.2 uip

end Patch

end Backend
