/-
Programs that are loaded from a binary: what `buildFromUnit` puts into a program and what a load
leaves in its place (`program.cpp`), and what the runtime asks of a program and its kernels
(`cl_kernel.c`, `cl_command_queue_gen7.c`, `cl_device_enqueue.c`).

The type sizes of the arguments, the function attributes, the printf and profiling data, the mark
of device enqueue and the block functions are not in a binary.  A load allocates the arguments and
does not set their type sizes; what that memory holds is a parameter.

* `reload_eq` — the program that comes back.
* **`reload_iff`** — when it answers as the program that was built.
-/
import Beignet.Backend.ProgramRoundTrip
import Beignet.Ir.Printf
import Beignet.Lib.Lists

open Codec

namespace Backend

namespace Binary

def GBE_ARG_PIPE : BitVec 32 := 6
def GBE_ARG_INVALID : BitVec 32 := 0xffffffff

/-! ### What is in memory -/

structure PrintfSet where
  fmts : List (BitVec 32 × List Ir.Printf.PrintfSlot)
  btiBuf : BitVec 8

structure ProfilingInfo where
  bti : BitVec 32
  profilingType : BitVec 32
  deviceID : BitVec 32

/-- All of a kernel. -/
structure LiveKernel extends Kernel where
  /-- of the info of each argument -/
  typeSize : ℕ → BitVec 32
  printfSet : Option PrintfSet
  profilingInfo : Option ProfilingInfo
  functionAttributes : List Byte
  useDeviceEnqueue : Bool

structure LiveProgram where
  constantSet : Option ConstantSet
  relocTable : Option RelocTable
  kernels : SortedMap (List Byte) LiveKernel
  blockFuncs : List (List Byte)

/-! ### Building -/

/-- What `buildFromUnit` takes of an `ir::Function`. -/
structure IrFunction where
  samplerSet : SamplerSet
  imageSet : ImageSet
  printfSet : PrintfSet
  compileWorkGroupSize : BitVec 32 × BitVec 32 × BitVec 32
  functionAttributes : List Byte

structure IrUnit where
  constantSet : ConstantSet
  relocTable : RelocTable
  functionSet : SortedMap (List Byte) IrFunction
  profilingInfo : ProfilingInfo
  blockFuncs : List (List Byte)

/-- What is set in a kernel that the backend has compiled. -/
def IrUnit.attach (unit : IrUnit) (fn : IrFunction) (kernel : LiveKernel) : LiveKernel :=
  { kernel with
    samplerSet := some fn.samplerSet
    profilingInfo := some unit.profilingInfo
    imageSet := some fn.imageSet
    printfSet := some fn.printfSet
    compileWgSize := fn.compileWorkGroupSize
    functionAttributes := fn.functionAttributes }

/-- The order of the names. -/
local instance byte_preorder : Std.IsPreorder Byte := inferInstance

local instance byte_lt : Std.LawfulOrderLT (BitVec 8) := inferInstance

/-- The unit is as `compileKernel` leaves it. -/
def buildFromUnit (compileKernel : List Byte → Option LiveKernel) (unit : IrUnit) :
    Option LiveProgram := do
  let kernels ← unit.functionSet.entries.mapM fun e => do
    let kernel ← compileKernel e.1
    return (e.1, unit.attach e.2 kernel)
  return ⟨some unit.constantSet, some unit.relocTable, .ofList kernels, unit.blockFuncs⟩

/-! ### Storing and loading -/

/-- The part that a binary holds. -/
def LiveProgram.stored (program : LiveProgram) : Program :=
  ⟨program.constantSet, program.relocTable, program.kernels.map fun _ kernel => kernel.toKernel⟩

def LiveProgram.serializeToBin (program : LiveProgram) : Serial Unit :=
  program.stored.serializeToBin

/-- The other fields are those of the constructor. -/
def LiveKernel.ofStored (typeSize : ℕ → BitVec 32) (kernel : Kernel) : LiveKernel :=
  { kernel with
    typeSize := typeSize
    printfSet := none
    profilingInfo := none
    functionAttributes := []
    useDeviceEnqueue := false }

/-- `heap` is what the memory of the arguments of a kernel holds before. -/
def LiveProgram.deserializeFromBin (heap : List Byte → ℕ → BitVec 32) : Serial LiveProgram := do
  let program ← Program.deserializeFromBin
  return ⟨program.constantSet, program.relocTable,
    program.kernels.map fun name kernel => .ofStored (heap name) kernel, []⟩

def LiveProgram.reload (heap : List Byte → ℕ → BitVec 32) (program : LiveProgram) :
    Option LiveProgram := do
  let (_, outs, _) ← program.serializeToBin ([], 0)
  let (loaded, _, _) ← LiveProgram.deserializeFromBin heap (outs, 0)
  return loaded

/-! ### What the runtime asks -/

/-- `c_str` -/
def cStr (s : List Byte) : List Byte := s.takeWhile (· ≠ 0)

/-- `operator<` of patches -/
def PatchInfo.less (i0 i1 : PatchInfo) : Bool :=
  if i0.type ≠ i1.type then i0.type < i1.type else i0.subType < i1.subType

def SamplerSet.getDataSize (set : SamplerSet) : ℕ := set.samplerMap.entries.length

def SamplerSet.getData (set : SamplerSet) (samplers : BitVec 32 → BitVec 32) :
    BitVec 32 → BitVec 32 :=
  set.samplerMap.entries.foldl (fun samplers e => Function.update samplers e.2 e.1) samplers

def ImageSet.getDataSize (set : ImageSet) : ℕ := set.regMap.entries.length

def ImageSet.getData (set : ImageSet) : List ImageInfo := set.regMap.entries.map fun e => e.2

namespace LiveKernel

variable (kernel : LiveKernel) (argID : ℕ)

def getName : List Byte := cStr kernel.name

def getFunctionAttributes : List Byte := cStr kernel.functionAttributes

def getArgNum : ℕ := kernel.args.length

def getArgSize : BitVec 32 := (kernel.args[argID]?.map (·.size)).getD 0

def getArgBTI : BitVec 8 := (kernel.args[argID]?.map (·.bti)).getD 0

def getArgAlign : BitVec 32 := (kernel.args[argID]?.map (·.align)).getD 0

def getArgType : BitVec 32 := (kernel.args[argID]?.map (·.type)).getD GBE_ARG_INVALID

/-- The fields of the info but the type size. -/
def getArgInfo : Option ArgInfo := kernel.args[argID]?.map (·.info)

/-- `cl_kernel_set_arg` asks for the type size of a pipe only. -/
def getPacketSize : Option (BitVec 32) :=
  if kernel.getArgType argID = GBE_ARG_PIPE then some (kernel.typeSize argID) else none

/-- The patches are sorted: `lower_bound` is the first that is not less. -/
def getCurbeOffset (type : BitVec 16) (subType : BitVec 32) : ℤ :=
  match kernel.patches.find? fun patch => ! patch.less ⟨type, subType, 0⟩ with
  | none => -1
  | some patch => if PatchInfo.less ⟨type, subType, 0⟩ patch then -1 else patch.offset.toNat

def getSamplerSize : ℕ := (kernel.samplerSet.map SamplerSet.getDataSize).getD 0

/-- `cl_kernel_setup` asks for the samplers if there are any. -/
def getSamplerData (samplers : BitVec 32 → BitVec 32) : BitVec 32 → BitVec 32 :=
  match kernel.samplerSet with
  | some set => if set.getDataSize > 0 then set.getData samplers else samplers
  | none => samplers

def getImageSize : ℕ := (kernel.imageSet.map ImageSet.getDataSize).getD 0

/-- `cl_kernel_setup` asks for the images if there are any. -/
def getImageData : Option (List ImageInfo) :=
  match kernel.imageSet with
  | some set => if set.getDataSize > 0 then some set.getData else none
  | none => none

def getPrintfNum : ℕ := (kernel.printfSet.map fun set => set.fmts.length).getD 0

/-- The set is used if it has a statement. -/
def dupPrintfSet : Option PrintfSet := if kernel.getPrintfNum ≠ 0 then kernel.printfSet else none

def getProfilingBTI : BitVec 32 := (kernel.profilingInfo.map (·.bti)).getD 0

/-- The info is used if there is a buffer. -/
def dupProfilingInfo : Option ProfilingInfo :=
  if kernel.getProfilingBTI ≠ 0 then kernel.profilingInfo else none

end LiveKernel

structure ArgAnswers where
  type : BitVec 32
  size : BitVec 32
  align : BitVec 32
  bti : BitVec 8
  info : Option ArgInfo
  packetSize : Option (BitVec 32)

@[ext] structure KernelAnswers where
  name : List Byte
  attributes : List Byte
  oclVersion : BitVec 32
  code : List Byte
  argNum : ℕ
  arg : ℕ → ArgAnswers
  curbeOffset : BitVec 16 → BitVec 32 → ℤ
  curbeSize : BitVec 32
  simdWidth : BitVec 32
  stackSize : BitVec 32
  scratchSize : BitVec 32
  useSLM : Bool
  slmSize : BitVec 32
  compileWgSize : BitVec 32 × BitVec 32 × BitVec 32
  samplerSize : ℕ
  samplerData : (BitVec 32 → BitVec 32) → BitVec 32 → BitVec 32
  imageSize : ℕ
  imageData : Option (List ImageInfo)
  printfNum : ℕ
  printfSet : Option PrintfSet
  profilingBTI : BitVec 32
  profilingInfo : Option ProfilingInfo
  useDeviceEnqueue : Bool

def LiveKernel.answers (kernel : LiveKernel) : KernelAnswers where
  name := kernel.getName
  attributes := kernel.getFunctionAttributes
  oclVersion := kernel.oclVersion
  code := getCode kernel.insns
  argNum := kernel.getArgNum
  arg argID := ⟨kernel.getArgType argID, kernel.getArgSize argID, kernel.getArgAlign argID,
    kernel.getArgBTI argID, kernel.getArgInfo argID, kernel.getPacketSize argID⟩
  curbeOffset := kernel.getCurbeOffset
  curbeSize := kernel.curbeSize
  simdWidth := kernel.simdWidth
  stackSize := kernel.stackSize
  scratchSize := kernel.scratchSize
  useSLM := kernel.useSLM
  slmSize := kernel.slmSize
  compileWgSize := kernel.compileWgSize
  samplerSize := kernel.getSamplerSize
  samplerData := kernel.getSamplerData
  imageSize := kernel.getImageSize
  imageData := kernel.getImageData
  printfNum := kernel.getPrintfNum
  printfSet := kernel.dupPrintfSet
  profilingBTI := kernel.getProfilingBTI
  profilingInfo := kernel.dupProfilingInfo
  useDeviceEnqueue := kernel.useDeviceEnqueue

namespace LiveProgram

variable (program : LiveProgram)

def getKernelNum : ℕ := program.kernels.entries.length

/-- `getKernel` of a name -/
def getKernelByName (name : List Byte) : Option LiveKernel := program.kernels.find? name

def getKernel (ID : ℕ) : Option LiveKernel := program.kernels.entries[ID]?.map fun e => e.2

def getDeviceEnqueueKernelName (index : ℕ) : Option (List Byte) :=
  program.blockFuncs[index]?.map cStr

def getGlobalConstantData : Option (List Byte) := program.constantSet.map (·.data)

def getGlobalRelocTable : Option (List RelocEntry) := program.relocTable.map (·.entries)

end LiveProgram

/-- The same answers. -/
structure LiveProgram.Same (program loaded : LiveProgram) : Prop where
  kernelNum : loaded.getKernelNum = program.getKernelNum
  byName : ∀ name, (loaded.getKernelByName name).map LiveKernel.answers =
    (program.getKernelByName name).map LiveKernel.answers
  byID : ∀ ID, (loaded.getKernel ID).map LiveKernel.answers =
    (program.getKernel ID).map LiveKernel.answers
  deviceEnqueue : ∀ index,
    loaded.getDeviceEnqueueKernelName index = program.getDeviceEnqueueKernelName index
  constants : loaded.getGlobalConstantData = program.getGlobalConstantData
  relocs : loaded.getGlobalRelocTable = program.getGlobalRelocTable

/-! ### The loaded program -/

section Reload

variable {program : LiveProgram} {heap : List Byte → ℕ → BitVec 32}

/-- What comes back. -/
def LiveProgram.loaded (heap : List Byte → ℕ → BitVec 32) (program : LiveProgram) : LiveProgram :=
  ⟨program.constantSet, program.relocTable, program.kernels.map fun name kernel =>
    .ofStored (heap name) kernel.toKernel.readBack, []⟩

theorem deserializeFromBin_stored (h : program.stored.Writable)
    (hsize : program.stored.bytes.length < 2 ^ 32) :
    LiveProgram.deserializeFromBin heap (program.stored.bytes, 0) =
      some (program.loaded heap, [], BitVec.ofNat 32 program.stored.bytes.length) := by
  have hread := reads_program h hsize []
  have hkernels : program.stored.readBack.kernels.map
      (fun name kernel => LiveKernel.ofStored (heap name) kernel) =
      (program.loaded heap).kernels := by
    simp only [LiveProgram.stored, LiveProgram.loaded, Program.readBack, SortedMap.map,
      List.map_map]
    rfl
  have hloaded : program.loaded heap = ⟨program.stored.readBack.constantSet,
      program.stored.readBack.relocTable, program.stored.readBack.kernels.map
        fun name kernel => .ofStored (heap name) kernel, []⟩ := by
    rw [hkernels]
    rfl
  rw [List.append_nil] at hread
  rw [hloaded]
  show (Program.deserializeFromBin (program.stored.bytes, 0)).bind _ = _
  rw [show (0 : BitVec 32) = 0#32 from rfl, hread]
  rfl

theorem reload_eq (h : program.stored.Writable)
    (hsize : program.stored.bytes.length < 2 ^ 32) :
    program.reload heap = some (program.loaded heap) := by
  have hwrite : program.serializeToBin ([], 0) = _ := writes_program h hsize []
  rw [List.nil_append] at hwrite
  rw [LiveProgram.reload, hwrite]
  show (LiveProgram.deserializeFromBin heap (program.stored.bytes, 0)).bind _ = _
  rw [deserializeFromBin_stored h hsize]
  rfl

end Reload

/-! ### When the answers are the same -/

/-- A kernel that does not use what is not stored. -/
structure LiveKernel.Plain (kernel : LiveKernel) : Prop where
  attributes : kernel.getFunctionAttributes = []
  printf : kernel.getPrintfNum = 0
  profiling : kernel.getProfilingBTI = 0
  deviceEnqueue : kernel.useDeviceEnqueue = false

/-- A set that is not stored is one without data. -/
theorem filter_eq {α β : Type} {f : Option α → β} {empty : α → Bool} (set : Option α)
    (h : ∀ a, empty a = true → f none = f (some a)) :
    f (set.filter fun a => ! empty a) = f set := by
  cases set with
  | none => rfl
  | some a =>
    cases hempty : empty a with
    | true => rw [Option.filter_some, hempty]; exact h a hempty
    | false => rw [Option.filter_some, hempty]; rfl

theorem SamplerSet.getDataSize_of_empty {set : SamplerSet} (h : set.empty = true) :
    set.getDataSize = 0 := by
  rw [SamplerSet.getDataSize, List.isEmpty_iff.mp h, List.length_nil]

theorem ImageSet.getDataSize_of_empty {set : ImageSet} (h : set.empty = true) :
    set.getDataSize = 0 := by
  rw [ImageSet.getDataSize, List.isEmpty_iff.mp h, List.length_nil]

section Answers

variable {kernel : LiveKernel} {typeSize : ℕ → BitVec 32}

theorem getSamplerSize_readBack :
    (LiveKernel.ofStored typeSize kernel.readBack).getSamplerSize = kernel.getSamplerSize :=
  filter_eq (f := fun set => (set.map SamplerSet.getDataSize).getD 0) kernel.samplerSet
    fun _ hempty => (SamplerSet.getDataSize_of_empty hempty).symm

theorem getImageSize_readBack :
    (LiveKernel.ofStored typeSize kernel.readBack).getImageSize = kernel.getImageSize :=
  filter_eq (f := fun set => (set.map ImageSet.getDataSize).getD 0) kernel.imageSet
    fun _ hempty => (ImageSet.getDataSize_of_empty hempty).symm

theorem getSamplerData_readBack :
    (LiveKernel.ofStored typeSize kernel.readBack).getSamplerData = kernel.getSamplerData := by
  funext samplers
  refine filter_eq (f := fun set => match set with
    | some set => if set.getDataSize > 0 then set.getData samplers else samplers
    | none => samplers) kernel.samplerSet fun set hempty => ?_
  exact (if_neg (by rw [SamplerSet.getDataSize_of_empty hempty]; exact Nat.lt_irrefl 0)).symm

theorem getImageData_readBack :
    (LiveKernel.ofStored typeSize kernel.readBack).getImageData = kernel.getImageData := by
  refine filter_eq (f := fun set => match set with
    | some set => if set.getDataSize > 0 then some set.getData else none
    | none => none) kernel.imageSet fun set hempty => ?_
  exact (if_neg (by rw [ImageSet.getDataSize_of_empty hempty]; exact Nat.lt_irrefl 0)).symm

theorem answers_iff :
    (LiveKernel.ofStored typeSize kernel.readBack).answers = kernel.answers ↔
      kernel.Plain ∧ ∀ argID, kernel.getArgType argID = GBE_ARG_PIPE →
        typeSize argID = kernel.typeSize argID := by
  constructor
  · intro h
    refine ⟨⟨?_, ?_, ?_, ?_⟩, fun argID hpipe => ?_⟩
    · exact (congrArg KernelAnswers.attributes h).symm
    · exact (congrArg KernelAnswers.printfNum h).symm
    · exact (congrArg KernelAnswers.profilingBTI h).symm
    · exact (congrArg KernelAnswers.useDeviceEnqueue h).symm
    · have harg := congrArg ArgAnswers.packetSize (congrFun (congrArg KernelAnswers.arg h) argID)
      have hloaded : (LiveKernel.ofStored typeSize kernel.readBack).getPacketSize argID =
          some (typeSize argID) := if_pos hpipe
      have hbuilt : kernel.getPacketSize argID = some (kernel.typeSize argID) := if_pos hpipe
      exact Option.some.inj (hloaded.symm.trans (harg.trans hbuilt))
  · rintro ⟨h, hpipe⟩
    have hpacket : (LiveKernel.ofStored typeSize kernel.readBack).getPacketSize =
        kernel.getPacketSize := by
      funext argID
      by_cases htype : kernel.getArgType argID = GBE_ARG_PIPE
      · exact (if_pos htype).trans ((congrArg some (hpipe argID htype)).trans (if_pos htype).symm)
      · exact (if_neg htype).trans (if_neg htype).symm
    have hprintf : kernel.dupPrintfSet = none := if_neg (not_not.mpr h.printf)
    have hprofiling : kernel.dupProfilingInfo = none := if_neg (not_not.mpr h.profiling)
    refine KernelAnswers.ext rfl h.attributes.symm rfl rfl rfl ?_ rfl rfl rfl rfl rfl rfl rfl rfl
      getSamplerSize_readBack getSamplerData_readBack getImageSize_readBack getImageData_readBack
      h.printf.symm hprintf.symm h.profiling.symm hprofiling.symm h.deviceEnqueue.symm
    funext argID
    show ArgAnswers.mk _ _ _ _ _ _ = ArgAnswers.mk _ _ _ _ _ _
    rw [hpacket]
    rfl

end Answers

/-- Nothing that is asked for is missing. -/
structure LiveProgram.Plain (program : LiveProgram) : Prop where
  blockFuncs : program.blockFuncs = []
  kernels : ∀ e ∈ program.kernels.entries, e.2.Plain
  noPipe : ∀ e ∈ program.kernels.entries, ∀ argID, e.2.getArgType argID ≠ GBE_ARG_PIPE

/-- Whatever the memory holds. -/
theorem same_loaded_iff {program : LiveProgram} :
    (∀ heap, program.Same (program.loaded heap)) ↔ program.Plain := by
  constructor
  · intro h
    have hkernel : ∀ heap : List Byte → ℕ → BitVec 32, ∀ e ∈ program.kernels.entries,
        (LiveKernel.ofStored (heap e.1) e.2.readBack).answers = e.2.answers := by
      intro heap e he
      obtain ⟨ID, hID⟩ := List.mem_iff_getElem?.mp he
      have hbyID := (h heap).byID ID
      simp only [LiveProgram.getKernel, LiveProgram.loaded, SortedMap.map, List.getElem?_map, hID,
        Option.map_some] at hbyID
      exact Option.some.inj hbyID
    refine ⟨?_, fun e he => ?_, fun e he argID hpipe => ?_⟩
    · have hfirst := (h fun _ _ => 0).deviceEnqueue 0
      cases hfuncs : program.blockFuncs with
      | nil => rfl
      | cons name rest =>
        rw [LiveProgram.getDeviceEnqueueKernelName, LiveProgram.getDeviceEnqueueKernelName,
          hfuncs] at hfirst
        cases hfirst
    · exact (answers_iff.mp (hkernel (fun _ _ => 0) e he)).1
    · -- a memory that holds something else
      have hsize := (answers_iff.mp (hkernel (fun _ argID => e.2.typeSize argID + 1) e he)).2 argID
        hpipe
      have hone : (1 : BitVec 32) = 0 := add_eq_left.mp hsize
      exact absurd hone (by decide)
  · intro h heap
    have hkernel : ∀ e ∈ program.kernels.entries,
        (LiveKernel.ofStored (heap e.1) e.2.readBack).answers = e.2.answers := fun e he =>
      answers_iff.mpr ⟨h.kernels e he, fun argID hpipe => absurd hpipe (h.noPipe e he argID)⟩
    refine ⟨List.length_map _, fun name => ?_, fun ID => ?_, fun index => ?_, rfl, rfl⟩
    · rw [LiveProgram.getKernelByName, LiveProgram.getKernelByName, LiveProgram.loaded,
        SortedMap.find?_map, Option.map_map]
      cases hfind : program.kernels.find? name with
      | none => rfl
      | some kernel =>
        exact congrArg some (hkernel (name, kernel) (SortedMap.exists_mem_of_find? hfind))
    · simp only [LiveProgram.getKernel, LiveProgram.loaded, SortedMap.map, List.getElem?_map]
      cases hget : program.kernels.entries[ID]? with
      | none => rfl
      | some e => exact congrArg some (hkernel e (List.mem_of_getElem? hget))
    · rw [LiveProgram.getDeviceEnqueueKernelName, LiveProgram.getDeviceEnqueueKernelName,
        h.blockFuncs]
      rfl

/-! ### Built programs -/

/-- A unit that needs nothing that is not stored. -/
structure IrUnit.Plain (compileKernel : List Byte → Option LiveKernel) (unit : IrUnit) : Prop where
  blockFuncs : unit.blockFuncs = []
  profiling : unit.functionSet.entries ≠ [] → unit.profilingInfo.bti = 0
  functions : ∀ e ∈ unit.functionSet.entries,
    cStr e.2.functionAttributes = [] ∧ e.2.printfSet.fmts = []
  kernels : ∀ e ∈ unit.functionSet.entries, ∀ kernel, compileKernel e.1 = some kernel →
    kernel.useDeviceEnqueue = false ∧ ∀ argID, kernel.getArgType argID ≠ GBE_ARG_PIPE

section Build

variable {compileKernel : List Byte → Option LiveKernel} {unit : IrUnit} {program : LiveProgram}

/-- One kernel for each function. -/
theorem kernels_of_build (hbuild : buildFromUnit compileKernel unit = some program) :
    List.Forall₂ (fun e e' => ∃ kernel, compileKernel e.1 = some kernel ∧
      e' = (e.1, unit.attach e.2 kernel)) unit.functionSet.entries program.kernels.entries := by
  obtain ⟨kernels, hkernels, hprogram⟩ := Option.bind_eq_some_iff.mp hbuild
  obtain rfl := Option.some.inj hprogram
  have hall := (Lists.forall₂_of_mapM hkernels).imp fun e e' he => by
    obtain ⟨kernel, hkernel, he⟩ := Option.bind_eq_some_iff.mp he
    exact (⟨kernel, hkernel, (Option.some.inj he).symm⟩ : ∃ kernel,
      compileKernel e.1 = some kernel ∧ e' = (e.1, unit.attach e.2 kernel))
  -- the kernels have the names of the functions
  have hkeys : kernels.map Prod.fst = unit.functionSet.entries.map Prod.fst := by
    refine List.forall₂_eq_eq_eq ▸ List.forall₂_map_left_iff.mpr
      (List.forall₂_map_right_iff.mpr (hall.flip.imp fun e' e he => ?_))
    obtain ⟨kernel, -, rfl⟩ := he
    rfl
  have hsorted : kernels.Pairwise fun a b => a.1 < b.1 := by
    have hnames := List.pairwise_map.mpr unit.functionSet.sorted
    rw [← hkeys] at hnames
    exact List.pairwise_map.mp hnames
  show List.Forall₂ _ _ (SortedMap.ofList kernels).entries
  rw [SortedMap.entries_ofList hsorted]
  exact hall

theorem plain_iff (hbuild : buildFromUnit compileKernel unit = some program) :
    program.Plain ↔ unit.Plain compileKernel := by
  have hkernels := kernels_of_build hbuild
  have hfuncs : program.blockFuncs = unit.blockFuncs := by
    obtain ⟨kernels, -, hprogram⟩ := Option.bind_eq_some_iff.mp hbuild
    obtain rfl := Option.some.inj hprogram
    rfl
  have hsrc : ∀ e ∈ unit.functionSet.entries, ∃ kernel, compileKernel e.1 = some kernel ∧
      (e.1, unit.attach e.2 kernel) ∈ program.kernels.entries := by
    intro e he
    obtain ⟨e', he', kernel, hkernel, rfl⟩ := Lists.exists_of_forall₂ hkernels he
    exact ⟨kernel, hkernel, he'⟩
  constructor
  · intro h
    refine ⟨hfuncs ▸ h.blockFuncs, fun hne => ?_, fun e he => ?_, fun e he kernel hkernel => ?_⟩
    · obtain ⟨e, he⟩ := List.exists_mem_of_ne_nil _ hne
      obtain ⟨kernel, -, hmem⟩ := hsrc e he
      exact (h.kernels _ hmem).profiling
    · obtain ⟨kernel, -, hmem⟩ := hsrc e he
      exact ⟨(h.kernels _ hmem).attributes, List.length_eq_zero_iff.mp (h.kernels _ hmem).printf⟩
    · obtain ⟨kernel', hkernel', hmem⟩ := hsrc e he
      obtain rfl := Option.some.inj (hkernel'.symm.trans hkernel)
      exact ⟨(h.kernels _ hmem).deviceEnqueue, h.noPipe _ hmem⟩
  · intro h
    have hdst : ∀ e' ∈ program.kernels.entries, ∃ e ∈ unit.functionSet.entries, ∃ kernel,
        compileKernel e.1 = some kernel ∧ e' = (e.1, unit.attach e.2 kernel) := fun e' he' =>
      Lists.exists_of_forall₂ hkernels.flip he'
    refine ⟨hfuncs.trans h.blockFuncs, fun e' he' => ?_, fun e' he' => ?_⟩
    · obtain ⟨e, he, kernel, hkernel, rfl⟩ := hdst e' he'
      obtain ⟨hattributes, hfmts⟩ := h.functions e he
      exact ⟨hattributes, List.length_eq_zero_iff.mpr hfmts, h.profiling (List.ne_nil_of_mem he),
        (h.kernels e he kernel hkernel).1⟩
    · obtain ⟨e, he, kernel, hkernel, rfl⟩ := hdst e' he'
      exact (h.kernels e he kernel hkernel).2

/-- A loaded program answers as the built one, whatever memory it is loaded into, if nothing that
is not stored is needed. -/
theorem reload_iff (hbuild : buildFromUnit compileKernel unit = some program)
    (h : program.stored.Writable) (hsize : program.stored.bytes.length < 2 ^ 32) :
    (∀ heap, ∃ loaded, program.reload heap = some loaded ∧ program.Same loaded) ↔
      unit.Plain compileKernel := by
  rw [← plain_iff hbuild, ← same_loaded_iff]
  refine forall_congr' fun heap => ?_
  rw [reload_eq h hsize]
  exact ⟨fun ⟨_, heq, hsame⟩ => Option.some.inj heq ▸ hsame, fun hsame => ⟨_, rfl, hsame⟩⟩

end Build

/-- One kernel with some printf statements. -/
def sampleUnit (fmts : List (BitVec 32 × List Ir.Printf.PrintfSlot)) : IrUnit where
  constantSet := ⟨[1, 2, 3], [⟨[99], 4, 4, 0⟩]⟩
  relocTable := ⟨[]⟩
  functionSet := ⟨[([107, 101, 114], ⟨⟨.empty⟩, ⟨.empty, .empty⟩, ⟨fmts, 2⟩, (0, 0, 0), []⟩)],
    List.pairwise_singleton _ _⟩
  profilingInfo := ⟨0, 0, 0⟩
  blockFuncs := []

def sampleCompiled : LiveKernel :=
  .ofStored (fun _ => 8) { sampleKernel with samplerSet := none, imageSet := none }

def sampleBuilt (fmts : List (BitVec 32 × List Ir.Printf.PrintfSlot)) : LiveProgram where
  constantSet := some (sampleUnit fmts).constantSet
  relocTable := some ⟨[]⟩
  kernels := .ofList [([107, 101, 114],
    (sampleUnit fmts).attach ⟨⟨.empty⟩, ⟨.empty, .empty⟩, ⟨fmts, 2⟩, (0, 0, 0), []⟩ sampleCompiled)]
  blockFuncs := []

section Sample

variable (fmts : List (BitVec 32 × List Ir.Printf.PrintfSlot))

theorem build_sample :
    buildFromUnit (fun _ => some sampleCompiled) (sampleUnit fmts) = some (sampleBuilt fmts) := rfl

theorem sampleBuilt_writable : (sampleBuilt fmts).stored.Writable where
  constants := by
    intro set hset cnst hcnst
    obtain rfl : _ = set := Option.some.inj hset
    rw [List.mem_singleton.mp hcnst]
    decide
  name := by
    intro e he
    rw [List.mem_singleton.mp he]
    rfl
  kernels := by
    intro e he
    rw [List.mem_singleton.mp he]
    have hname : 0 ∉ sampleKernel.name := by decide
    refine ⟨hname, ?_, rfl, rfl, ?_⟩
    · intro arg harg
      rw [List.mem_singleton.mp harg]
      exact ⟨by decide, by decide, by decide, by decide⟩
    · intro set hset e he
      obtain rfl : _ = set := Option.some.inj hset
      exact absurd he List.not_mem_nil

theorem sampleBuilt_length : (sampleBuilt fmts).stored.bytes.length < 2 ^ 32 := by
  show (sampleBuilt []).stored.bytes.length < 2 ^ 32
  decide +kernel

end Sample

theorem reload_iff_sample :
    (∀ heap, ∃ loaded, (sampleBuilt []).reload heap = some loaded ∧
      (sampleBuilt []).Same loaded) ↔ (sampleUnit []).Plain fun _ => some sampleCompiled :=
  reload_iff (build_sample []) (sampleBuilt_writable []) (sampleBuilt_length [])

/-- The statement is missing. -/
theorem reload_printf :
    ¬ ∀ heap, ∃ loaded, (sampleBuilt [(0, [.string "hi"])]).reload heap = some loaded ∧
      (sampleBuilt [(0, [.string "hi"])]).Same loaded := by
  intro h
  obtain ⟨loaded, hload, hsame⟩ := h fun _ _ => 0
  rw [reload_eq (sampleBuilt_writable _) (sampleBuilt_length _)] at hload
  obtain rfl := Option.some.inj hload
  have hnum := congrArg (Option.map KernelAnswers.printfNum) (hsame.byID 0)
  exact absurd (Option.some.inj hnum) (by decide)

end Binary

end Backend
