/-
Program binaries: `serializeToBin` and `deserializeFromBin` of `Program` and `Kernel`
(`program.cpp`), `ConstantSet` (`constant.cpp`), `RelocTable` (`reloc.cpp`), `SamplerSet`
(`sampler.cpp`) and `ImageSet` (`image.cpp`).

A string is a list of bytes; a file is little-endian.  Every block is `writeFramed` between the
marks of its class, with its size behind it, and is read by `readFramed`; a returned zero is a
failure.  Fields that the format does not carry (`typeSize`, `functionAttributes`, printf and
profiling data, `useDeviceEnqueue`, `blockFuncs`) are left out.  An enumeration is the word that
holds it.  `none` for a sampler or image set is the null pointer, which cannot be written.

* `Program.serializeToBin`, `Program.deserializeFromBin` — the two sides.
* `Program.Writable` — what a compiled program satisfies.
* `Program.readBack` — an empty sampler or image set comes back as absent.
-/
import Beignet.Lib.Serial
import Beignet.Lib.SortedMap

open Codec

namespace Backend

namespace Binary

/-- `TO_MAGIC` -/
def TO_MAGIC (a b c d : Char) : BitVec 32 :=
  BitVec.ofNat 32 (a.toNat * 2 ^ 24 + b.toNat * 2 ^ 16 + c.toNat * 2 ^ 8 + d.toNat)

/-! ### ConstantSet -/

structure Constant where
  name : List Byte
  size : BitVec 32
  alignment : BitVec 32
  offset : BitVec 32

structure ConstantSet where
  data : List Byte
  constants : List Constant

def Constant.serialize (cnst : Constant) : Serial Unit := do
  out32 (BitVec.ofNat 32 (4 + cnst.name.length + 4 + 4 + 4))
  outString cnst.name
  out32 cnst.size
  out32 cnst.alignment
  out32 cnst.offset

def Constant.deserialize : Serial Constant := do
  let bytes ← in32
  let name_len ← in32
  let c_name ← take name_len.toNat
  let size ← in32
  let align ← in32
  let offset ← in32
  require (bytes.toNat = 4 + name_len.toNat + 4 + 4 + 4)
  return ⟨c_name.takeWhile (· ≠ 0), size, align, offset⟩

namespace ConstantSet

def magic_begin : BitVec 32 := TO_MAGIC 'C' 'N' 'S' 'T'
def magic_end : BitVec 32 := TO_MAGIC 'T' 'S' 'N' 'C'

def serializeToBin (set : ConstantSet) : Serial Unit :=
  writeFramed magic_begin magic_end do
    outList out8 set.data
    outList Constant.serialize set.constants

def deserializeFromBin : Serial ConstantSet :=
  readFramed magic_begin magic_end do
    let data ← inList in8
    return ⟨data, ← inList Constant.deserialize⟩

end ConstantSet

/-! ### RelocTable -/

structure RelocEntry where
  refOffset : BitVec 32
  defOffset : BitVec 32

structure RelocTable where
  entries : List RelocEntry

namespace RelocTable

def magic_begin : BitVec 32 := TO_MAGIC 'R' 'E' 'L' 'C'
def magic_end : BitVec 32 := TO_MAGIC 'C' 'L' 'E' 'R'

def serializeToBin (table : RelocTable) : Serial Unit :=
  writeFramed magic_begin magic_end do
    outList (fun entry => do out32 entry.refOffset; out32 entry.defOffset) table.entries

def deserializeFromBin : Serial RelocTable :=
  readFramed magic_begin magic_end do
    return ⟨← inList do return ⟨← in32, ← in32⟩⟩

end RelocTable

/-! ### SamplerSet -/

structure SamplerSet where
  samplerMap : SortedMap (BitVec 32) (BitVec 32)

namespace SamplerSet

def magic_begin : BitVec 32 := TO_MAGIC 'S' 'A' 'M' 'P'
def magic_end : BitVec 32 := TO_MAGIC 'P' 'M' 'A' 'S'

def empty (set : SamplerSet) : Bool := set.samplerMap.entries.isEmpty

def serializeToBin (set : SamplerSet) : Serial Unit :=
  writeFramed magic_begin magic_end do
    outList (fun e => do out32 e.1; out32 e.2) set.samplerMap.entries

def deserializeFromBin : Serial SamplerSet :=
  readFramed magic_begin magic_end do
    return ⟨.ofList (← inList do return (← in32, ← in32))⟩

end SamplerSet

/-! ### ImageSet -/

structure ImageInfo where
  arg_idx : BitVec 32
  idx : BitVec 32
  wSlot : BitVec 32
  hSlot : BitVec 32
  depthSlot : BitVec 32
  dataTypeSlot : BitVec 32
  channelOrderSlot : BitVec 32
  dimOrderSlot : BitVec 32

structure ImageSet where
  regMap : SortedMap (BitVec 32) ImageInfo
  indexMap : SortedMap (BitVec 32) ImageInfo

/-- An entry of one of the two maps. -/
def ImageInfo.serialize (e : BitVec 32 × ImageInfo) : Serial Unit := do
  out32 e.1
  out32 e.2.arg_idx
  out32 e.2.idx
  out32 e.2.wSlot
  out32 e.2.hSlot
  out32 e.2.depthSlot
  out32 e.2.dataTypeSlot
  out32 e.2.channelOrderSlot
  out32 e.2.dimOrderSlot

def ImageInfo.deserialize : Serial (BitVec 32 × ImageInfo) := do
  let key ← in32
  let arg_idx ← in32
  let idx ← in32
  let wSlot ← in32
  let hSlot ← in32
  let depthSlot ← in32
  let dataTypeSlot ← in32
  let channelOrderSlot ← in32
  let dimOrderSlot ← in32
  return (key, ⟨arg_idx, idx, wSlot, hSlot, depthSlot, dataTypeSlot, channelOrderSlot,
    dimOrderSlot⟩)

namespace ImageSet

def magic_begin : BitVec 32 := TO_MAGIC 'I' 'M' 'A' 'G'
def magic_end : BitVec 32 := TO_MAGIC 'G' 'A' 'M' 'I'

def empty (set : ImageSet) : Bool := set.regMap.entries.isEmpty

def serializeToBin (set : ImageSet) : Serial Unit :=
  writeFramed magic_begin magic_end do
    outList ImageInfo.serialize set.regMap.entries
    outList ImageInfo.serialize set.indexMap.entries

/-- The key that is read for the second map is not used. -/
def deserializeFromBin : Serial ImageSet :=
  readFramed magic_begin magic_end do
    let regs ← inList ImageInfo.deserialize
    let indices ← inList ImageInfo.deserialize
    return ⟨.ofList regs, .ofList (indices.map fun e => (e.2.idx, e.2))⟩

end ImageSet

/-! ### Kernel -/

structure ArgInfo where
  addrSpace : BitVec 32
  typeName : List Byte
  accessQual : List Byte
  typeQual : List Byte
  argName : List Byte

structure KernelArgument where
  type : BitVec 32
  size : BitVec 32
  align : BitVec 32
  bti : BitVec 8
  info : ArgInfo

/-- The fields of a patch are bit fields. -/
structure PatchInfo where
  type : BitVec 16
  subType : BitVec 32
  offset : BitVec 16

structure GenInstruction where
  low : BitVec 32
  high : BitVec 32

structure Kernel where
  name : List Byte
  oclVersion : BitVec 32
  args : List KernelArgument
  patches : List PatchInfo
  curbeSize : BitVec 32
  simdWidth : BitVec 32
  stackSize : BitVec 32
  scratchSize : BitVec 32
  useSLM : Bool
  slmSize : BitVec 32
  compileWgSize : BitVec 32 × BitVec 32 × BitVec 32
  samplerSet : Option SamplerSet
  imageSet : Option ImageSet
  insns : List GenInstruction

def KernelArgument.serialize (arg : KernelArgument) : Serial Unit := do
  out32 arg.type
  out32 arg.size
  out32 arg.align
  out8 arg.bti
  out32 arg.info.addrSpace
  outString arg.info.typeName
  outString arg.info.accessQual
  outString arg.info.typeQual
  outString arg.info.argName

def KernelArgument.deserialize : Serial KernelArgument := do
  let type ← in32
  let size ← in32
  let align ← in32
  let bti ← in8
  let addrSpace ← in32
  let typeName ← inString
  let accessQual ← inString
  let typeQual ← inString
  let argName ← inString
  return ⟨type, size, align, bti, ⟨addrSpace, typeName, accessQual, typeQual, argName⟩⟩

def PatchInfo.serialize (patch : PatchInfo) : Serial Unit := do
  out32 (patch.type.setWidth 32)
  out32 patch.subType
  out32 (patch.offset.setWidth 32)

def PatchInfo.deserialize : Serial PatchInfo := do
  let type ← in32
  let subType ← in32
  let offset ← in32
  return ⟨type.setWidth 16, subType, offset.setWidth 16⟩

/-- `GenKernel::getCode` -/
def getCode (insns : List GenInstruction) : List Byte :=
  insns.flatMap fun insn => le32 insn.low ++ le32 insn.high

/-- `GenKernel::setCode`: as many instructions as fit. -/
def setCode : List Byte → List GenInstruction
  | b0 :: b1 :: b2 :: b3 :: b4 :: b5 :: b6 :: b7 :: rest =>
    ⟨word [b0, b1, b2, b3], word [b4, b5, b6, b7]⟩ :: setCode rest
  | _ => []

/-- A set is written unless it is empty; there is no test for the null pointer. -/
def outSet {α : Type} (empty : α → Bool) (serializeToBin : α → Serial Unit) :
    Option α → Serial Unit
  | none => failure
  | some set => outFlagged (if empty set then none else some (serializeToBin set))

namespace Kernel

def magic_begin : BitVec 32 := TO_MAGIC 'K' 'E' 'R' 'N'
def magic_end : BitVec 32 := TO_MAGIC 'N' 'R' 'E' 'K'

def serializeToBin (kernel : Kernel) : Serial Unit :=
  writeFramed magic_begin magic_end do
    outString kernel.name
    out32 kernel.oclVersion
    outList KernelArgument.serialize kernel.args
    outList PatchInfo.serialize kernel.patches
    out32 kernel.curbeSize
    out32 kernel.simdWidth
    out32 kernel.stackSize
    out32 kernel.scratchSize
    out8 (if kernel.useSLM then 1 else 0)
    out32 kernel.slmSize
    out32 kernel.compileWgSize.1
    out32 kernel.compileWgSize.2.1
    out32 kernel.compileWgSize.2.2
    outSet SamplerSet.empty SamplerSet.serializeToBin kernel.samplerSet
    outSet ImageSet.empty ImageSet.serializeToBin kernel.imageSet
    outString (getCode kernel.insns)

def deserializeFromBin : Serial Kernel :=
  readFramed magic_begin magic_end do
    let name ← inString
    let oclVersion ← in32
    let args ← inList KernelArgument.deserialize
    let patches ← inList PatchInfo.deserialize
    let curbeSize ← in32
    let simdWidth ← in32
    let stackSize ← in32
    let scratchSize ← in32
    let useSLM ← in8
    let slmSize ← in32
    let wgSize0 ← in32
    let wgSize1 ← in32
    let wgSize2 ← in32
    let samplerSet ← inFlagged SamplerSet.deserializeFromBin
    let imageSet ← inFlagged ImageSet.deserializeFromBin
    let code_size ← in32
    let code ← take code_size.toNat
    return ⟨name, oclVersion, args, patches, curbeSize, simdWidth, stackSize, scratchSize,
      useSLM ≠ 0, slmSize, (wgSize0, wgSize1, wgSize2), samplerSet, imageSet, setCode code⟩

end Kernel

/-! ### Program -/

structure Program where
  constantSet : Option ConstantSet
  relocTable : Option RelocTable
  kernels : SortedMap (List Byte) Kernel

namespace Program

def magic_begin : BitVec 32 := TO_MAGIC 'P' 'R' 'O' 'G'
def magic_end : BitVec 32 := TO_MAGIC 'G' 'O' 'R' 'P'

def serializeToBin (program : Program) : Serial Unit :=
  writeFramed magic_begin magic_end do
    outFlagged (program.constantSet.map ConstantSet.serializeToBin)
    outFlagged (program.relocTable.map RelocTable.serializeToBin)
    outList (fun e => nested e.2.serializeToBin) program.kernels.entries

def deserializeFromBin : Serial Program :=
  readFramed magic_begin magic_end do
    let constantSet ← inFlagged ConstantSet.deserializeFromBin
    let relocTable ← inFlagged RelocTable.deserializeFromBin
    let kernels ← inList (nested Kernel.deserializeFromBin)
    return ⟨constantSet, relocTable, .ofList (kernels.map fun ker => (ker.name, ker))⟩

end Program

/-! ### What is written and what comes back -/

/-- Names and infos have no zero bytes. -/
structure ArgInfo.NulFree (info : ArgInfo) : Prop where
  typeName : 0 ∉ info.typeName
  accessQual : 0 ∉ info.accessQual
  typeQual : 0 ∉ info.typeQual
  argName : 0 ∉ info.argName

structure Kernel.Writable (kernel : Kernel) : Prop where
  name : 0 ∉ kernel.name
  args : ∀ arg ∈ kernel.args, arg.info.NulFree
  samplerSet : kernel.samplerSet.isSome
  imageSet : kernel.imageSet.isSome
  /-- an image is keyed by its index -/
  indexMap : ∀ set ∈ kernel.imageSet, ∀ e ∈ set.indexMap.entries, e.1 = e.2.idx

structure Program.Writable (program : Program) : Prop where
  constants : ∀ set ∈ program.constantSet, ∀ cnst ∈ set.constants, 0 ∉ cnst.name
  /-- a kernel is keyed by its name -/
  name : ∀ e ∈ program.kernels.entries, e.1 = e.2.name
  kernels : ∀ e ∈ program.kernels.entries, e.2.Writable

/-- The kernel as it is read: empty sets are absent. -/
def Kernel.readBack (kernel : Kernel) : Kernel :=
  { kernel with
    samplerSet := kernel.samplerSet.filter fun set => !set.empty
    imageSet := kernel.imageSet.filter fun set => !set.empty }

def Program.readBack (program : Program) : Program :=
  { program with
    kernels := ⟨program.kernels.entries.map fun e => (e.1, e.2.readBack), by
      rw [List.pairwise_map]
      exact program.kernels.sorted⟩ }

end Binary

end Backend
