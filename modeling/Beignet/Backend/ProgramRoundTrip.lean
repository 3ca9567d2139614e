/-
Program binaries round-trip.

`bytes` is the layout of each part, the same for both sides.  A part is written as its layout
whatever it holds; it is read back from its layout, followed by anything, as long as its lengths
fit in 32 bits, which they do in a binary of less than `2 ^ 32` bytes.

* `writes_program`, `reads_program` — the two sides of the whole format.
* **`program_round_trip`** — what is written is read back, and both return its size.
-/
import Beignet.Backend.ProgramBinary

open Codec

namespace Backend

namespace Binary

/-! ### Lengths -/

theorem length_le_flatMap {α : Type} {enc : α → List Byte} {l : List α} {a : α} (h : a ∈ l) :
    (enc a).length ≤ (l.flatMap enc).length := by
  obtain ⟨l1, l2, rfl⟩ := List.append_of_mem h
  simp only [List.flatMap_append, List.flatMap_cons, List.length_append]
  omega

theorem count_le_flatMap {α : Type} {enc : α → List Byte} {l : List α}
    (h : ∀ a, 1 ≤ (enc a).length) : l.length ≤ (l.flatMap enc).length := by
  induction l with
  | nil => simp
  | cons a l ih =>
    have := h a
    simp only [List.flatMap_cons, List.length_append, List.length_cons]
    omega

/-- A list of parts, each of which is read back if it is not too long. -/
theorem reads_list {α : Type} {r : Serial α} {enc : α → List Byte} {l : List α}
    (hsize : (list enc l).length < 2 ^ 32) (hpos : ∀ a, 1 ≤ (enc a).length)
    (h : ∀ a ∈ l, (enc a).length < 2 ^ 32 → Codec.Reads r (enc a) a) :
    Codec.Reads (inList r) (list enc l) l := by
  rw [list, List.length_append] at hsize
  refine reads_inList ?_ ?_
  · have := @count_le_flatMap α enc l hpos
    omega
  · intro a ha
    have := @length_le_flatMap α enc l a ha
    exact h a ha (by omega)

theorem reads_string {s : List Byte} (hsize : (string s).length < 2 ^ 32) (hs : 0 ∉ s) :
    Codec.Reads inString (string s) s := by
  rw [string, List.length_append] at hsize
  exact reads_inString (by omega) hs

/-! ### ConstantSet -/

def Constant.bytes (cnst : Constant) : List Byte :=
  le32 (BitVec.ofNat 32 (4 + cnst.name.length + 4 + 4 + 4)) ++ (string cnst.name ++
    (le32 cnst.size ++ (le32 cnst.alignment ++ le32 cnst.offset)))

theorem writes_constant (cnst : Constant) : Codec.Writes cnst.serialize cnst.bytes :=
  (writes_out32 _).seq ((writes_outString _).seq ((writes_out32 _).seq ((writes_out32 _).seq
    (writes_out32 _))))

theorem reads_constant {cnst : Constant} (hsize : cnst.bytes.length < 2 ^ 32)
    (hname : 0 ∉ cnst.name) : Codec.Reads Constant.deserialize cnst.bytes cnst := by
  have hlen : cnst.name.length + 20 < 2 ^ 32 := by
    simp only [Constant.bytes, string, List.length_append, length_le32] at hsize
    omega
  have hall : cnst.name.takeWhile (· ≠ 0) = cnst.name := by
    rw [List.takeWhile_eq_self_iff]
    intro b hb
    simpa using ne_of_mem_of_not_mem hb hname
  rw [Constant.bytes, string, List.append_assoc]
  refine (reads_in32 _).bind ((reads_in32 _).bind ?_)
  rw [toNat_length (by omega)]
  refine (reads_take _).bind ((reads_in32 _).bind ((reads_in32 _).bind ?_))
  rw [← List.append_nil (le32 cnst.offset)]
  refine (reads_in32 _).bind (Codec.Reads.step (reads_require ?_) ?_)
  · rw [BitVec.toNat_ofNat, Nat.mod_eq_of_lt (by omega)]
  · rw [hall]
    exact reads_pure cnst

def ConstantSet.bytes (set : ConstantSet) : List Byte :=
  frame ConstantSet.magic_begin ConstantSet.magic_end
    (list (fun b => [b]) set.data ++ list Constant.bytes set.constants)

theorem writes_constantSet {set : ConstantSet} (hsize : set.bytes.length < 2 ^ 32) :
    Codec.Writes (nested set.serializeToBin) set.bytes :=
  writes_framed ((writes_outList fun b _ => writes_out8 b).seq
    (writes_outList fun cnst _ => writes_constant cnst)) hsize

theorem reads_constantSet {set : ConstantSet} (hsize : set.bytes.length < 2 ^ 32)
    (hname : ∀ cnst ∈ set.constants, 0 ∉ cnst.name) :
    Codec.Reads (nested ConstantSet.deserializeFromBin) set.bytes set := by
  have hbody := hsize
  rw [ConstantSet.bytes, length_frame, List.length_append] at hbody
  refine reads_framed ?_ hsize
  have hdata : Codec.Reads (inList in8) (list (fun b => [b]) set.data) set.data :=
    reads_list (by omega) (fun _ => Nat.le_refl 1) fun b _ _ => reads_in8 b
  refine hdata.bind ?_
  refine Codec.Reads.map (ConstantSet.mk set.data) (reads_list (by omega) ?_ ?_)
  · intro cnst
    simp only [Constant.bytes, List.length_append, length_le32]
    omega
  · intro cnst hcnst h
    exact reads_constant h (hname cnst hcnst)

/-! ### RelocTable -/

def RelocTable.bytes (table : RelocTable) : List Byte :=
  frame RelocTable.magic_begin RelocTable.magic_end
    (list (fun entry => le32 entry.refOffset ++ le32 entry.defOffset) table.entries)

theorem writes_relocTable {table : RelocTable} (hsize : table.bytes.length < 2 ^ 32) :
    Codec.Writes (nested table.serializeToBin) table.bytes :=
  writes_framed (writes_outList fun _ _ => (writes_out32 _).seq (writes_out32 _)) hsize

theorem reads_relocTable {table : RelocTable} (hsize : table.bytes.length < 2 ^ 32) :
    Codec.Reads (nested RelocTable.deserializeFromBin) table.bytes table := by
  have hbody := hsize
  rw [RelocTable.bytes, length_frame] at hbody
  refine reads_framed (Codec.Reads.map RelocTable.mk (reads_list (by omega) ?_ ?_)) hsize
  · intro entry
    simp
  · intro entry _ _
    exact (reads_in32 _).bind ((reads_in32 _).map (RelocEntry.mk entry.refOffset))

/-! ### SamplerSet -/

def SamplerSet.bytes (set : SamplerSet) : List Byte :=
  frame SamplerSet.magic_begin SamplerSet.magic_end
    (list (fun e => le32 e.1 ++ le32 e.2) set.samplerMap.entries)

theorem writes_samplerSet {set : SamplerSet} (hsize : set.bytes.length < 2 ^ 32) :
    Codec.Writes (nested set.serializeToBin) set.bytes :=
  writes_framed (writes_outList fun _ _ => (writes_out32 _).seq (writes_out32 _)) hsize

theorem reads_samplerSet {set : SamplerSet} (hsize : set.bytes.length < 2 ^ 32) :
    Codec.Reads (nested SamplerSet.deserializeFromBin) set.bytes set := by
  have hbody := hsize
  rw [SamplerSet.bytes, length_frame] at hbody
  have hentries : Codec.Reads (inList do return (← in32, ← in32))
      (list (fun e => le32 e.1 ++ le32 e.2) set.samplerMap.entries) set.samplerMap.entries := by
    refine reads_list (by omega) (fun e => by simp) ?_
    intro e _ _
    exact (reads_in32 _).bind ((reads_in32 _).map (Prod.mk e.1))
  have hread := hentries.map fun l => SamplerSet.mk (.ofList l)
  rw [SortedMap.ofList_entries] at hread
  exact reads_framed hread hsize

/-! ### ImageSet -/

def ImageInfo.bytes (e : BitVec 32 × ImageInfo) : List Byte :=
  le32 e.1 ++ (le32 e.2.arg_idx ++ (le32 e.2.idx ++ (le32 e.2.wSlot ++ (le32 e.2.hSlot ++
    (le32 e.2.depthSlot ++ (le32 e.2.dataTypeSlot ++ (le32 e.2.channelOrderSlot ++
      le32 e.2.dimOrderSlot)))))))

theorem writes_imageInfo (e : BitVec 32 × ImageInfo) :
    Codec.Writes (ImageInfo.serialize e) (ImageInfo.bytes e) :=
  (writes_out32 _).seq ((writes_out32 _).seq ((writes_out32 _).seq ((writes_out32 _).seq
    ((writes_out32 _).seq ((writes_out32 _).seq ((writes_out32 _).seq ((writes_out32 _).seq
      (writes_out32 _))))))))

theorem reads_imageInfo (e : BitVec 32 × ImageInfo) :
    Codec.Reads ImageInfo.deserialize (ImageInfo.bytes e) e := by
  rw [ImageInfo.bytes, ← List.append_nil (le32 e.2.dimOrderSlot)]
  exact (reads_in32 _).bind ((reads_in32 _).bind ((reads_in32 _).bind ((reads_in32 _).bind
    ((reads_in32 _).bind ((reads_in32 _).bind ((reads_in32 _).bind ((reads_in32 _).bind
      ((reads_in32 _).bind (reads_pure e)))))))))

def ImageSet.bytes (set : ImageSet) : List Byte :=
  frame ImageSet.magic_begin ImageSet.magic_end
    (list ImageInfo.bytes set.regMap.entries ++ list ImageInfo.bytes set.indexMap.entries)

theorem writes_imageSet {set : ImageSet} (hsize : set.bytes.length < 2 ^ 32) :
    Codec.Writes (nested set.serializeToBin) set.bytes :=
  writes_framed ((writes_outList fun e _ => writes_imageInfo e).seq
    (writes_outList fun e _ => writes_imageInfo e)) hsize

theorem reads_imageSet {set : ImageSet} (hsize : set.bytes.length < 2 ^ 32)
    (hindex : ∀ e ∈ set.indexMap.entries, e.1 = e.2.idx) :
    Codec.Reads (nested ImageSet.deserializeFromBin) set.bytes set := by
  have hbody := hsize
  rw [ImageSet.bytes, length_frame, List.length_append] at hbody
  have hpos : ∀ e, 1 ≤ (ImageInfo.bytes e).length := fun e => by simp [ImageInfo.bytes]
  have hregs : Codec.Reads (inList ImageInfo.deserialize) (list ImageInfo.bytes set.regMap.entries)
      set.regMap.entries := reads_list (by omega) hpos fun e _ _ => reads_imageInfo e
  have hindices : Codec.Reads (inList ImageInfo.deserialize)
      (list ImageInfo.bytes set.indexMap.entries) set.indexMap.entries :=
    reads_list (by omega) hpos fun e _ _ => reads_imageInfo e
  -- the keys of the second map are taken from the entries
  have hkeys : (set.indexMap.entries.map fun e => (e.2.idx, e.2)) = set.indexMap.entries := by
    refine (List.map_congr_left fun e he => ?_).trans (List.map_id _)
    rw [← hindex e he]
    rfl
  refine reads_framed (hregs.bind ?_) hsize
  have hread := hindices.map fun l => ImageSet.mk set.regMap
    (.ofList (l.map fun e => (e.2.idx, e.2)))
  rw [hkeys, SortedMap.ofList_entries] at hread
  rw [SortedMap.ofList_entries]
  exact hread

/-! ### Kernel -/

def KernelArgument.bytes (arg : KernelArgument) : List Byte :=
  le32 arg.type ++ (le32 arg.size ++ (le32 arg.align ++ ([arg.bti] ++ (le32 arg.info.addrSpace ++
    (string arg.info.typeName ++ (string arg.info.accessQual ++ (string arg.info.typeQual ++
      string arg.info.argName)))))))

theorem writes_kernelArgument (arg : KernelArgument) : Codec.Writes arg.serialize arg.bytes :=
  (writes_out32 _).seq ((writes_out32 _).seq ((writes_out32 _).seq ((writes_out8 _).seq
    ((writes_out32 _).seq ((writes_outString _).seq ((writes_outString _).seq
      ((writes_outString _).seq (writes_outString _))))))))

theorem reads_kernelArgument {arg : KernelArgument} (hsize : arg.bytes.length < 2 ^ 32)
    (h : arg.info.NulFree) : Codec.Reads KernelArgument.deserialize arg.bytes arg := by
  simp only [KernelArgument.bytes, List.length_append] at hsize
  rw [KernelArgument.bytes, ← List.append_nil (string arg.info.argName)]
  refine (reads_in32 _).bind ((reads_in32 _).bind ((reads_in32 _).bind ((reads_in8 _).bind
    ((reads_in32 _).bind ?_))))
  exact (reads_string (by omega) h.typeName).bind ((reads_string (by omega) h.accessQual).bind
    ((reads_string (by omega) h.typeQual).bind ((reads_string (by omega) h.argName).bind
      (reads_pure arg))))

def PatchInfo.bytes (patch : PatchInfo) : List Byte :=
  le32 (patch.type.setWidth 32) ++ (le32 patch.subType ++ le32 (patch.offset.setWidth 32))

theorem writes_patchInfo (patch : PatchInfo) : Codec.Writes patch.serialize patch.bytes :=
  (writes_out32 _).seq ((writes_out32 _).seq (writes_out32 _))

theorem reads_patchInfo (patch : PatchInfo) :
    Codec.Reads PatchInfo.deserialize patch.bytes patch := by
  rw [PatchInfo.bytes, ← List.append_nil (le32 (patch.offset.setWidth 32))]
  refine (reads_in32 _).bind ((reads_in32 _).bind ((reads_in32 _).bind ?_))
  rw [BitVec.setWidth_setWidth_of_le _ (by decide), BitVec.setWidth_setWidth_of_le _ (by decide),
    BitVec.setWidth_eq, BitVec.setWidth_eq]
  exact reads_pure patch

theorem setCode_getCode (insns : List GenInstruction) : setCode (getCode insns) = insns := by
  induction insns with
  | nil => rfl
  | cons insn insns ih =>
    show GenInstruction.mk (word (le32 insn.low)) (word (le32 insn.high)) ::
      setCode (getCode insns) = _
    rw [word_le32, word_le32, ih]

/-- The layout of a sampler or image set. -/
def setBytes {α : Type} (empty : α → Bool) (bytes : α → List Byte) (set : Option α) : List Byte :=
  flagged ((set.filter fun set => !empty set).map bytes)

section Sets

variable {α : Type} {empty : α → Bool} {bytes : α → List Byte} {set : Option α}

theorem setBytes_filter :
    setBytes empty bytes (set.filter fun set => !empty set) = setBytes empty bytes set := by
  simp only [setBytes, Option.filter_filter, Bool.and_self]

theorem writes_outSet {serializeToBin : α → Serial Unit} (hset : set.isSome)
    (h : ∀ a ∈ set, (bytes a).length < 2 ^ 32 → Codec.Writes (nested (serializeToBin a)) (bytes a))
    (hsize : (setBytes empty bytes set).length < 2 ^ 32) :
    Codec.Writes (outSet empty serializeToBin set) (setBytes empty bytes set) := by
  obtain ⟨a, rfl⟩ := Option.isSome_iff_exists.mp hset
  cases hempty : empty a with
  | true =>
    simp only [outSet, setBytes, hempty, Option.filter, Bool.not_true]
    exact writes_flagged_none
  | false =>
    simp only [outSet, setBytes, hempty, Option.filter, Bool.not_false] at hsize ⊢
    refine writes_flagged_some (h a rfl ?_)
    simp only [if_true, Option.map_some, flagged, List.length_append] at hsize
    omega

theorem reads_inSet {r : Serial α}
    (h : ∀ a ∈ set, (bytes a).length < 2 ^ 32 → Codec.Reads (nested r) (bytes a) a)
    (hsize : (setBytes empty bytes set).length < 2 ^ 32) :
    Codec.Reads (inFlagged r) (setBytes empty bytes set) (set.filter fun set => !empty set) := by
  rw [setBytes] at hsize ⊢
  cases hfilter : set.filter fun set => !empty set with
  | none => exact reads_flagged_none
  | some a =>
    rw [hfilter] at hsize
    have ha : a ∈ set := (Option.filter_eq_some_iff.mp hfilter).1
    refine reads_flagged_some (h a ha ?_)
    simp only [Option.map_some, flagged, List.length_append] at hsize
    omega

end Sets

/-- The fields of a kernel between its arguments and its sets. -/
def Kernel.sizes (kernel : Kernel) : List Byte :=
  le32 kernel.curbeSize ++ (le32 kernel.simdWidth ++ (le32 kernel.stackSize ++
    (le32 kernel.scratchSize ++ ([if kernel.useSLM then 1 else 0] ++ (le32 kernel.slmSize ++
      (le32 kernel.compileWgSize.1 ++ (le32 kernel.compileWgSize.2.1 ++
        le32 kernel.compileWgSize.2.2)))))))

def Kernel.body (kernel : Kernel) : List Byte :=
  string kernel.name ++ (le32 kernel.oclVersion ++ (list KernelArgument.bytes kernel.args ++
    (list PatchInfo.bytes kernel.patches ++ (kernel.sizes ++
      (setBytes SamplerSet.empty SamplerSet.bytes kernel.samplerSet ++
        (setBytes ImageSet.empty ImageSet.bytes kernel.imageSet ++
          string (getCode kernel.insns)))))))

def Kernel.bytes (kernel : Kernel) : List Byte :=
  frame Kernel.magic_begin Kernel.magic_end kernel.body

theorem writes_kernel {kernel : Kernel} (h : kernel.Writable)
    (hsize : kernel.bytes.length < 2 ^ 32) :
    Codec.Writes (nested kernel.serializeToBin) kernel.bytes := by
  have hbody := hsize
  simp only [Kernel.bytes, length_frame, Kernel.body, List.length_append] at hbody
  have hargs := writes_outList fun arg (_ : arg ∈ kernel.args) => writes_kernelArgument arg
  have hpatches := writes_outList fun patch (_ : patch ∈ kernel.patches) => writes_patchInfo patch
  have hsamplers : Codec.Writes
      (outSet SamplerSet.empty SamplerSet.serializeToBin kernel.samplerSet)
      (setBytes SamplerSet.empty SamplerSet.bytes kernel.samplerSet) :=
    writes_outSet h.samplerSet (fun set _ => writes_samplerSet) (by omega)
  have himages : Codec.Writes (outSet ImageSet.empty ImageSet.serializeToBin kernel.imageSet)
      (setBytes ImageSet.empty ImageSet.bytes kernel.imageSet) :=
    writes_outSet h.imageSet (fun set _ => writes_imageSet) (by omega)
  refine writes_framed ?_ hsize
  simp only [Kernel.body, Kernel.sizes, List.append_assoc]
  refine (writes_outString _).seq ((writes_out32 _).seq (hargs.seq (hpatches.seq ?_)))
  refine (writes_out32 _).seq ((writes_out32 _).seq ((writes_out32 _).seq ((writes_out32 _).seq
    ((writes_out8 _).seq ((writes_out32 _).seq ((writes_out32 _).seq ((writes_out32 _).seq
      ((writes_out32 _).seq ?_))))))))
  exact hsamplers.seq (himages.seq (writes_outString _))

theorem reads_kernel {kernel : Kernel} (h : kernel.Writable)
    (hsize : kernel.bytes.length < 2 ^ 32) :
    Codec.Reads (nested Kernel.deserializeFromBin) kernel.bytes kernel.readBack := by
  have hbody := hsize
  simp only [Kernel.bytes, length_frame, Kernel.body, List.length_append] at hbody
  have hargs : Codec.Reads (inList KernelArgument.deserialize)
      (list KernelArgument.bytes kernel.args) kernel.args := by
    refine reads_list (by omega) (fun arg => ?_) fun arg harg hlen =>
      reads_kernelArgument hlen (h.args arg harg)
    simp only [KernelArgument.bytes, List.length_append, length_le32]
    omega
  have hpatches : Codec.Reads (inList PatchInfo.deserialize) (list PatchInfo.bytes kernel.patches)
      kernel.patches :=
    reads_list (by omega) (fun patch => by simp [PatchInfo.bytes]) fun patch _ _ =>
      reads_patchInfo patch
  have hsamplers : Codec.Reads (inFlagged SamplerSet.deserializeFromBin)
      (setBytes SamplerSet.empty SamplerSet.bytes kernel.samplerSet)
      (kernel.samplerSet.filter fun set => !set.empty) :=
    reads_inSet (fun set _ => reads_samplerSet) (by omega)
  have himages : Codec.Reads (inFlagged ImageSet.deserializeFromBin)
      (setBytes ImageSet.empty ImageSet.bytes kernel.imageSet)
      (kernel.imageSet.filter fun set => !set.empty) :=
    reads_inSet (fun set hset hlen => reads_imageSet hlen (h.indexMap set hset)) (by omega)
  refine reads_framed ?_ hsize
  simp only [Kernel.body, Kernel.sizes, List.append_assoc, string]
  rw [← List.append_nil (getCode kernel.insns), ← List.append_assoc (le32 _) kernel.name]
  refine (reads_string (by omega) h.name).bind ((reads_in32 _).bind (hargs.bind (hpatches.bind ?_)))
  refine (reads_in32 _).bind ((reads_in32 _).bind ((reads_in32 _).bind ((reads_in32 _).bind
    ((reads_in8 _).bind ((reads_in32 _).bind ((reads_in32 _).bind ((reads_in32 _).bind
      ((reads_in32 _).bind ?_))))))))
  refine hsamplers.bind (himages.bind ((reads_in32 _).bind ?_))
  have hcode : (getCode kernel.insns).length < 2 ^ 32 := by
    simp only [string, List.length_append] at hbody
    omega
  have hslm : decide ((if kernel.useSLM then 1 else 0 : BitVec 8) ≠ 0) = kernel.useSLM := by
    cases kernel.useSLM <;> rfl
  rw [List.append_nil, toNat_length hcode, ← List.append_nil (getCode kernel.insns)]
  refine Codec.Reads.bind (by rw [List.append_nil]; exact reads_take _) ?_
  rw [setCode_getCode, hslm]
  exact reads_pure kernel.readBack

/-- The layout depends on what comes back only. -/
theorem bytes_readBack (kernel : Kernel) : kernel.readBack.bytes = kernel.bytes := by
  simp only [Kernel.bytes, Kernel.body, Kernel.readBack, setBytes_filter]
  rfl

/-! ### Program -/

def Program.body (program : Program) : List Byte :=
  flagged (program.constantSet.map ConstantSet.bytes) ++
    (flagged (program.relocTable.map RelocTable.bytes) ++
      list (fun e => e.2.bytes) program.kernels.entries)

def Program.bytes (program : Program) : List Byte :=
  frame Program.magic_begin Program.magic_end program.body

section Optional

variable {α : Type} {bytes : α → List Byte} {part : Option α}

theorem writes_optional {serializeToBin : α → Serial Unit}
    (h : ∀ a ∈ part, (bytes a).length < 2 ^ 32 → Codec.Writes (nested (serializeToBin a)) (bytes a))
    (hsize : (flagged (part.map bytes)).length < 2 ^ 32) :
    Codec.Writes (outFlagged (part.map serializeToBin)) (flagged (part.map bytes)) := by
  cases part with
  | none => exact writes_flagged_none
  | some a =>
    refine writes_flagged_some (h a rfl ?_)
    simp only [Option.map_some, flagged, List.length_append] at hsize
    omega

theorem reads_optional {r : Serial α}
    (h : ∀ a ∈ part, (bytes a).length < 2 ^ 32 → Codec.Reads (nested r) (bytes a) a)
    (hsize : (flagged (part.map bytes)).length < 2 ^ 32) :
    Codec.Reads (inFlagged r) (flagged (part.map bytes)) part := by
  cases part with
  | none => exact reads_flagged_none
  | some a =>
    refine reads_flagged_some (h a rfl ?_)
    simp only [Option.map_some, flagged, List.length_append] at hsize
    omega

end Optional

variable {program : Program}

theorem writes_program (h : program.Writable) (hsize : program.bytes.length < 2 ^ 32)
    (outs : List Byte) :
    program.serializeToBin (outs, 0#32) =
      some ((), outs ++ program.bytes, BitVec.ofNat 32 program.bytes.length) := by
  simp only [Program.bytes, length_frame, Program.body, List.length_append] at hsize
  have hconst := writes_optional (fun set _ => @writes_constantSet set)
    (show (flagged (program.constantSet.map ConstantSet.bytes)).length < 2 ^ 32 by omega)
  have hreloc := writes_optional (fun table _ => @writes_relocTable table)
    (show (flagged (program.relocTable.map RelocTable.bytes)).length < 2 ^ 32 by omega)
  refine writeFramed_run (hconst.seq (hreloc.seq (writes_outList ?_))) outs
  intro e he
  refine writes_kernel (h.kernels e he) ?_
  have := @length_le_flatMap _ (fun e : List Byte × Kernel => e.2.bytes) _ _ he
  simp only [list, List.length_append] at hsize
  omega

/-- The kernels, in the order of their names. -/
theorem reads_kernels (h : program.Writable)
    (hsize : (list (fun e => e.2.bytes) program.kernels.entries).length < 2 ^ 32) :
    Codec.Reads (inList (nested Kernel.deserializeFromBin))
      (list (fun e => e.2.bytes) program.kernels.entries)
      (program.kernels.entries.map fun e => e.2.readBack) := by
  have hlist : list (fun e => e.2.bytes) program.kernels.entries =
      list Kernel.bytes (program.kernels.entries.map fun e => e.2.readBack) := by
    simp only [list, List.length_map, List.flatMap_map, bytes_readBack]
  rw [hlist] at hsize ⊢
  refine reads_list hsize (fun kernel => ?_) ?_
  · rw [Kernel.bytes, length_frame]
    omega
  · intro kernel hkernel hlen
    obtain ⟨e, he, rfl⟩ := List.mem_map.mp hkernel
    rw [bytes_readBack] at hlen ⊢
    exact reads_kernel (h.kernels e he) hlen

theorem reads_program (h : program.Writable) (hsize : program.bytes.length < 2 ^ 32)
    (rest : List Byte) :
    Program.deserializeFromBin (program.bytes ++ rest, 0#32) =
      some (program.readBack, rest, BitVec.ofNat 32 program.bytes.length) := by
  have hbody := hsize
  simp only [Program.bytes, length_frame, Program.body, List.length_append] at hbody
  have hconst := reads_optional (fun set hset hlen => @reads_constantSet set hlen
      (h.constants set hset))
    (show (flagged (program.constantSet.map ConstantSet.bytes)).length < 2 ^ 32 by omega)
  have hreloc := reads_optional (fun table _ => @reads_relocTable table)
    (show (flagged (program.relocTable.map RelocTable.bytes)).length < 2 ^ 32 by omega)
  -- inserted by their names, the kernels are the map again
  have hkernels : ((program.kernels.entries.map fun e => e.2.readBack).map
      fun ker => (ker.name, ker)) = program.readBack.kernels.entries := by
    rw [List.map_map]
    refine List.map_congr_left fun e he => ?_
    show (e.2.name, e.2.readBack) = (e.1, e.2.readBack)
    rw [h.name e he]
  refine readFramed_run (hconst.bind (hreloc.bind ?_)) hsize rest
  have hread := (reads_kernels h (by omega)).map fun kernels =>
    Program.mk program.constantSet program.relocTable
      (.ofList (kernels.map fun ker => (ker.name, ker)))
  rw [hkernels, SortedMap.ofList_entries] at hread
  exact hread

/-- The bytes of a program are its binary: they are written and counted, and, followed by
anything, they are read back and counted the same. -/
theorem program_round_trip (program : Program) (h : program.Writable)
    (hsize : program.bytes.length < 2 ^ 32) (outs rest : List Byte) :
    program.serializeToBin (outs, 0#32) =
        some ((), outs ++ program.bytes, BitVec.ofNat 32 program.bytes.length) ∧
      Program.deserializeFromBin (program.bytes ++ rest, 0#32) =
        some (program.readBack, rest, BitVec.ofNat 32 program.bytes.length) :=
  ⟨writes_program h hsize outs, reads_program h hsize rest⟩

/-- A program with one kernel, which has an argument, an image and two instructions. -/
def sampleKernel : Kernel where
  name := [107, 101, 114]
  oclVersion := 120
  args := [⟨1, 8, 4, 2, ⟨1, [102], [], [], [120]⟩⟩]
  patches := [⟨3, 0, 64⟩]
  curbeSize := 96
  simdWidth := 16
  stackSize := 0
  scratchSize := 0
  useSLM := false
  slmSize := 0
  compileWgSize := (0, 0, 0)
  samplerSet := some ⟨.empty⟩
  imageSet := some ⟨⟨[(41, ⟨0, 2, 0, 4, 0, 0, 0, 0⟩)], List.pairwise_singleton _ _⟩,
    ⟨[(2, ⟨0, 2, 0, 4, 0, 0, 0, 0⟩)], List.pairwise_singleton _ _⟩⟩
  insns := [⟨1, 2⟩, ⟨3, 4⟩]

def sampleProgram : Program where
  constantSet := some ⟨[1, 2, 3], [⟨[99], 4, 4, 0⟩]⟩
  relocTable := none
  kernels := ⟨[([107, 101, 114], sampleKernel)], List.pairwise_singleton _ _⟩

theorem sampleProgram_writable : sampleProgram.Writable where
  constants := by
    intro set hset cnst hcnst
    obtain rfl : _ = set := Option.some.inj hset
    rw [List.mem_singleton.mp hcnst]
    decide
  name := by
    intro e he
    rw [List.mem_singleton.mp he]
    rfl
  kernels := by
    intro e he
    rw [List.mem_singleton.mp he]
    refine ⟨by decide, ?_, rfl, rfl, ?_⟩
    · intro arg harg
      rw [List.mem_singleton.mp harg]
      exact ⟨by decide, by decide, by decide, by decide⟩
    · intro set hset e he
      obtain rfl : _ = set := Option.some.inj hset
      rw [List.mem_singleton.mp he]

theorem program_round_trip_sample :
    Program.deserializeFromBin (sampleProgram.bytes ++ [1, 2], 0#32) =
      some (sampleProgram.readBack, [1, 2], BitVec.ofNat 32 sampleProgram.bytes.length) :=
  (program_round_trip sampleProgram sampleProgram_writable (by decide +kernel) [] [1, 2]).2

end Binary

end Backend
