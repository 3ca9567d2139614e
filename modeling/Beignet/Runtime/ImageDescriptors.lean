/-
The image descriptors that a copy changes for its launch (`cl_image_fill`,
`cl_mem_kernel_copy_image`, `cl_mem_copy_image_to_buffer` and `cl_mem_copy_buffer_to_image` of
`cl_mem.c`, `cl_image_get_intel_format` of `cl_image.c`).

The functions look at the texels of an image as integers, so they overwrite its format, and the
copies from and to buffers also its width and the size of a texel.  All of it is to be undone on
each way out.

Whether the internal kernel can be built and what the launch answers are parameters; its arguments
and sizes are left out, as are the fields of an image that are never written.

* `cl_mem_copy_image_to_buffer_image`, `cl_image_fill_image` — two functions always undo it;
* **`restored_iff`** — when a call leaves all images as they were.
-/
import Mathlib

namespace Runtime.ImageDescriptors

/-! ### Formats -/

@[match_pattern] abbrev CL_R : ℕ := 0x10B0
@[match_pattern] abbrev CL_RG : ℕ := 0x10B2
@[match_pattern] abbrev CL_RGBA : ℕ := 0x10B5
@[match_pattern] abbrev CL_BGRA : ℕ := 0x10B6
@[match_pattern] abbrev CL_sRGBA : ℕ := 0x10C1
@[match_pattern] abbrev CL_sBGRA : ℕ := 0x10C2
@[match_pattern] abbrev CL_NV12_INTEL : ℕ := 0x410E

@[match_pattern] abbrev CL_SNORM_INT8 : ℕ := 0x10D0
@[match_pattern] abbrev CL_SNORM_INT16 : ℕ := 0x10D1
@[match_pattern] abbrev CL_UNORM_INT8 : ℕ := 0x10D2
@[match_pattern] abbrev CL_UNORM_INT16 : ℕ := 0x10D3
@[match_pattern] abbrev CL_SIGNED_INT8 : ℕ := 0x10D7
@[match_pattern] abbrev CL_SIGNED_INT16 : ℕ := 0x10D8
@[match_pattern] abbrev CL_SIGNED_INT32 : ℕ := 0x10D9
@[match_pattern] abbrev CL_UNSIGNED_INT8 : ℕ := 0x10DA
@[match_pattern] abbrev CL_UNSIGNED_INT16 : ℕ := 0x10DB
@[match_pattern] abbrev CL_UNSIGNED_INT32 : ℕ := 0x10DC
@[match_pattern] abbrev CL_HALF_FLOAT : ℕ := 0x10DD
@[match_pattern] abbrev CL_FLOAT : ℕ := 0x10DE

structure Format where
  image_channel_order : ℕ
  image_channel_data_type : ℕ

abbrev INTEL_UNSUPPORTED_FORMAT : ℕ := 0xFFFFFFFF

/-- The surface format of the hardware. -/
def cl_image_get_intel_format (fmt : Format) : ℕ :=
  match fmt.image_channel_order, fmt.image_channel_data_type with
  | CL_R, CL_HALF_FLOAT => 0x10E
  | CL_R, CL_FLOAT => 0x0D8
  | CL_R, CL_UNORM_INT8 => 0x140
  | CL_R, CL_UNORM_INT16 => 0x10A
  | CL_R, CL_SIGNED_INT8 => 0x142
  | CL_R, CL_SIGNED_INT16 => 0x10C
  | CL_R, CL_SIGNED_INT32 => 0x0D6
  | CL_R, CL_UNSIGNED_INT8 => 0x143
  | CL_R, CL_UNSIGNED_INT16 => 0x10D
  | CL_R, CL_UNSIGNED_INT32 => 0x0D7
  | CL_RG, CL_UNORM_INT8 => 0x106
  | CL_RG, CL_UNORM_INT16 => 0x0CC
  | CL_RG, CL_UNSIGNED_INT8 => 0x109
  | CL_RG, CL_UNSIGNED_INT16 => 0x0CF
  | CL_RGBA, CL_HALF_FLOAT => 0x084
  | CL_RGBA, CL_FLOAT => 0x000
  | CL_RGBA, CL_UNORM_INT8 => 0x0C7
  | CL_RGBA, CL_UNORM_INT16 => 0x080
  | CL_RGBA, CL_SIGNED_INT8 => 0x0CA
  | CL_RGBA, CL_SIGNED_INT16 => 0x082
  | CL_RGBA, CL_SIGNED_INT32 => 0x001
  | CL_RGBA, CL_UNSIGNED_INT8 => 0x0CB
  | CL_RGBA, CL_UNSIGNED_INT16 => 0x083
  | CL_RGBA, CL_UNSIGNED_INT32 => 0x002
  | CL_BGRA, CL_UNORM_INT8 => 0x0C0
  | CL_sRGBA, CL_UNORM_INT8 => 0x0C8
  | CL_sBGRA, CL_UNORM_INT8 => 0x0C1
  | CL_NV12_INTEL, CL_UNORM_INT8 => 0x1A5
  | _, _ => INTEL_UNSUPPORTED_FORMAT

/-! ### Images -/

inductive ImageType where
  | image1D | image1DArray | image1DBuffer | image2D | image2DArray | image3D
  deriving DecidableEq

structure Image where
  image_type : ImageType
  fmt : Format
  intel_fmt : ℕ
  /-- bytes per texel -/
  bpp : ℕ
  w : ℕ

abbrev CL_IMAGE_FORMAT_NOT_SUPPORTED : ℤ := -10
abbrev CL_OUT_OF_RESOURCES : ℤ := -5

/-- `built` tells whether `cl_context_get_static_kernel_from_bin` finds the kernel, and `launch` is
the answer of `cl_command_queue_ND_range`. -/
structure Steps where
  built : Bool
  launch : ℤ

/-- The format of the same texels without an encoding of sRGB. -/
def fillFormat (fmt : Format) : Option Format :=
  if CL_sRGBA ≤ fmt.image_channel_order then some ⟨CL_RGBA, CL_UNORM_INT8⟩ else none

def cl_image_fill (steps : Steps) (src_image : Image) : ℤ × Image :=
  let savedIntelFmt := src_image.intel_fmt
  if src_image.image_type = .image1DBuffer then (CL_IMAGE_FORMAT_NOT_SUPPORTED, src_image)
  else if steps.built = false then (CL_OUT_OF_RESOURCES, src_image)
  else
    let src_image := match fillFormat src_image.fmt with
      | some fmt => { src_image with intel_fmt := cl_image_get_intel_format fmt }
      | none => src_image
    (steps.launch, { src_image with intel_fmt := savedIntelFmt })

/-- The integers of the size of a texel, `0` for types that need no change. -/
def fixupDataType (data_type : ℕ) : ℕ :=
  match data_type with
  | CL_SNORM_INT8 | CL_UNORM_INT8 => CL_UNSIGNED_INT8
  | CL_HALF_FLOAT | CL_SNORM_INT16 | CL_UNORM_INT16 => CL_UNSIGNED_INT16
  | CL_FLOAT => CL_UNSIGNED_INT32
  | _ => 0

/-- The pairs of types with a copy kernel. -/
def hasCopyKernel : ImageType → ImageType → Bool
  | .image1D, .image1D => true
  | .image2D, .image2D | .image2D, .image3D | .image2D, .image2DArray => true
  | .image1DArray, .image1DArray => true
  | .image2DArray, .image2DArray | .image2DArray, .image2D | .image2DArray, .image3D => true
  | .image3D, .image2D | .image3D, .image3D | .image3D, .image2DArray => true
  | _, _ => false

/-- The images by their addresses, since source and destination may be one. -/
abbrev Images := ℕ → Image

/-- `image->intel_fmt = …` -/
def setFormat (images : Images) (image intel_fmt : ℕ) : Images :=
  Function.update images image { images image with intel_fmt := intel_fmt }

def cl_mem_kernel_copy_image (steps : Steps) (images : Images) (src_image dst_image : ℕ) :
    ℤ × Images :=
  let src := images src_image
  let fixup := fixupDataType src.fmt.image_channel_data_type
  let savedIntelFmt := src.intel_fmt
  let images :=
    if fixup ≠ 0 then
      let order := src.fmt.image_channel_order
      let fmt : Format :=
        ⟨if order ≠ CL_BGRA ∧ order ≠ CL_sBGRA ∧ order ≠ CL_sRGBA then order else CL_RGBA, fixup⟩
      let images := setFormat images src_image (cl_image_get_intel_format fmt)
      setFormat images dst_image (images src_image).intel_fmt
    else images
  let ker := hasCopyKernel (images src_image).image_type (images dst_image).image_type &&
    steps.built
  let ret := if ker then steps.launch else CL_OUT_OF_RESOURCES
  -- the label `fail`
  if fixup ≠ 0 then
    (ret, setFormat (setFormat images src_image savedIntelFmt) dst_image savedIntelFmt)
  else (ret, images)

/-! ### Copies from and to buffers -/

/-- The format and the size of the words to copy. -/
def get_align_size_for_copy_kernel (image : Image) (origin0 region0 offset : ℕ) : Format × ℕ :=
  -- a product that wraps has the same low bits
  let fits (n : ℕ) := (image.w * image.bpp) % n = 0 ∧ (origin0 * image.bpp) % n = 0 ∧
    region0 % n = 0 ∧ offset % n = 0
  if fits 16 then (⟨CL_RGBA, CL_UNSIGNED_INT32⟩, 16)
  else if fits 4 then (⟨CL_R, CL_UNSIGNED_INT32⟩, 4)
  else (⟨CL_R, CL_UNSIGNED_INT8⟩, 1)

/-- The image as rows of words. -/
def reinterpret (image : Image) (origin0 region0 offset : ℕ) : Image :=
  let (fmt, align_size) :=
    get_align_size_for_copy_kernel image origin0 (region0 * image.bpp) offset
  { image with
    intel_fmt := cl_image_get_intel_format fmt
    w := image.w * image.bpp / align_size
    bpp := align_size }

/-- There are kernels for two types only. -/
def hasBufferKernel (image : Image) : Bool :=
  image.image_type = .image2D || image.image_type = .image3D

def cl_mem_copy_image_to_buffer (steps : Steps) (image : Image) (origin0 region0 dst_offset : ℕ) :
    ℤ × Image :=
  let saved := image
  let image := reinterpret image origin0 region0 dst_offset
  let ker := hasBufferKernel image && steps.built
  let ret := if ker then steps.launch else CL_OUT_OF_RESOURCES
  -- the label `fail`
  (ret, { image with intel_fmt := saved.intel_fmt, bpp := saved.bpp, w := saved.w })

def cl_mem_copy_buffer_to_image (steps : Steps) (image : Image) (origin0 region0 src_offset : ℕ) :
    ℤ × Image :=
  let saved := image
  let image := reinterpret image origin0 region0 src_offset
  let ker := hasBufferKernel image && steps.built
  if ker = false then (CL_OUT_OF_RESOURCES, image)
  else (steps.launch, { image with intel_fmt := saved.intel_fmt, bpp := saved.bpp, w := saved.w })

/-! ### The images after a call -/

/-- The calls that change a descriptor for a while. -/
inductive Call where
  | fill (src_image : ℕ)
  | copyImage (src_image dst_image : ℕ)
  | imageToBuffer (image origin0 region0 dst_offset : ℕ)
  | bufferToImage (image origin0 region0 src_offset : ℕ)

/-- A call, with what its steps return. -/
def Call.run (steps : Steps) (images : Images) : Call → ℤ × Images
  | .fill image => (cl_image_fill steps (images image)).map id (Function.update images image)
  | .copyImage src_image dst_image => cl_mem_kernel_copy_image steps images src_image dst_image
  | .imageToBuffer image origin0 region0 dst_offset =>
    (cl_mem_copy_image_to_buffer steps (images image) origin0 region0 dst_offset).map id
      (Function.update images image)
  | .bufferToImage image origin0 region0 src_offset =>
    (cl_mem_copy_buffer_to_image steps (images image) origin0 region0 src_offset).map id
      (Function.update images image)

/-- The call undoes what it changes, or changes nothing. -/
def Call.Undoes (steps : Steps) (images : Images) : Call → Prop
  | .fill _ | .imageToBuffer .. => True
  | .copyImage src_image dst_image =>
    fixupDataType (images src_image).fmt.image_channel_data_type = 0 ∨
      (images dst_image).intel_fmt = (images src_image).intel_fmt
  | .bufferToImage image origin0 region0 src_offset =>
    (hasBufferKernel (images image) = true ∧ steps.built = true) ∨
      reinterpret (images image) origin0 region0 src_offset = images image

theorem cl_image_fill_image (steps : Steps) (image : Image) :
    (cl_image_fill steps image).2 = image := by
  unfold cl_image_fill
  -- the format is only changed behind the last early exit
  split_ifs
  · rfl
  · rfl
  · rcases fillFormat image.fmt with _ | fmt
    · rfl
    · rfl

theorem cl_mem_copy_image_to_buffer_image (steps : Steps) (image : Image)
    (origin0 region0 dst_offset : ℕ) :
    (cl_mem_copy_image_to_buffer steps image origin0 region0 dst_offset).2 = image := rfl

/-- Without a kernel the image stays reinterpreted. -/
theorem cl_mem_copy_buffer_to_image_image (steps : Steps) (image : Image)
    (origin0 region0 src_offset : ℕ) :
    (cl_mem_copy_buffer_to_image steps image origin0 region0 src_offset).2 =
      if hasBufferKernel image = true ∧ steps.built = true then image
      else reinterpret image origin0 region0 src_offset := by
  have htype : hasBufferKernel (reinterpret image origin0 region0 src_offset) =
      hasBufferKernel image := rfl
  simp only [cl_mem_copy_buffer_to_image, htype]
  rcases hker : hasBufferKernel image && steps.built
  · rw [if_pos rfl, if_neg (by simpa using hker)]
  · rw [if_neg (by decide), if_pos (by simpa using hker)]
    rfl

theorem setFormat_self (images : Images) (image : ℕ) :
    setFormat images image (images image).intel_fmt = images := Function.update_eq_self ..

/-- The last format written to an image stays. -/
theorem setFormat_setFormat (images : Images) (image f f' : ℕ) :
    setFormat (setFormat images image f) image f' = setFormat images image f' := by
  simp [setFormat]

theorem setFormat_comm {image image' : ℕ} (h : image ≠ image') (images : Images) (f f' : ℕ) :
    setFormat (setFormat images image f) image' f' =
      setFormat (setFormat images image' f') image f := by
  simp [setFormat, Function.update_of_ne h, Function.update_of_ne h.symm, Function.update_comm h]

/-- The destination gets the format of the source. -/
theorem cl_mem_kernel_copy_image_images (steps : Steps) (images : Images)
    (src_image dst_image : ℕ) :
    (cl_mem_kernel_copy_image steps images src_image dst_image).2 =
      if fixupDataType (images src_image).fmt.image_channel_data_type = 0 then images
      else setFormat images dst_image (images src_image).intel_fmt := by
  by_cases hfix : fixupDataType (images src_image).fmt.image_channel_data_type = 0
  · simp only [cl_mem_kernel_copy_image, hfix, ne_eq, not_true_eq_false, if_false, if_true]
  · simp only [cl_mem_kernel_copy_image, hfix, ne_eq, not_false_eq_true, if_true, if_false]
    by_cases hsame : src_image = dst_image
    · subst hsame
      simp only [setFormat_setFormat]
    · rw [setFormat_comm hsame, setFormat_setFormat, setFormat_comm hsame, setFormat_setFormat,
        setFormat_comm (Ne.symm hsame), setFormat_self]

/-- **The images after a call.**  They are what they were exactly when the call undoes its change:
a copy from a buffer has to find its kernel, and a copy of an image whose type is changed has to
have one format for both images. -/
theorem restored_iff (steps : Steps) (images : Images) (call : Call) :
    (call.run steps images).2 = images ↔ call.Undoes steps images := by
  cases call with
  | fill image =>
    refine iff_of_true ?_ trivial
    show Function.update images image (cl_image_fill steps (images image)).2 = images
    rw [cl_image_fill_image, Function.update_eq_self]
  | copyImage src_image dst_image =>
    show (cl_mem_kernel_copy_image steps images src_image dst_image).2 = images ↔ _ ∨ _
    rw [cl_mem_kernel_copy_image_images]
    by_cases hfix : fixupDataType (images src_image).fmt.image_channel_data_type = 0
    · rw [if_pos hfix]
      exact iff_of_true rfl (.inl hfix)
    · rw [if_neg hfix, or_iff_right hfix]
      -- only the destination may have another format
      constructor
      · intro h
        have hdst := congrArg Image.intel_fmt (congrFun h dst_image)
        rw [setFormat, Function.update_self] at hdst
        exact hdst.symm
      · intro h
        rw [← h, setFormat_self]
  | imageToBuffer image origin0 region0 dst_offset =>
    refine iff_of_true ?_ trivial
    show Function.update images image
      (cl_mem_copy_image_to_buffer steps (images image) origin0 region0 dst_offset).2 = images
    rw [cl_mem_copy_image_to_buffer_image, Function.update_eq_self]
  | bufferToImage image origin0 region0 src_offset =>
    show Function.update images image
      (cl_mem_copy_buffer_to_image steps (images image) origin0 region0 src_offset).2 = images ↔
        _ ∨ _
    rw [cl_mem_copy_buffer_to_image_image, Function.update_eq_iff]
    by_cases hker : hasBufferKernel (images image) = true ∧ steps.built = true
    · rw [if_pos hker]
      exact iff_of_true ⟨rfl, fun _ _ => rfl⟩ (.inl hker)
    · rw [if_neg hker, or_iff_right hker]
      exact ⟨fun h => h.1, fun h => ⟨h, fun _ _ => rfl⟩⟩

/-- A two-dimensional image with four bytes to a texel. -/
def plainImage : Image := ⟨.image2D, ⟨CL_RGBA, CL_UNORM_INT8⟩, 0x0C7, 4, 64⟩

/-- A copy from a buffer that does not find its kernel leaves the image in words of 16 bytes; a copy
to an image of another format leaves it in that of the source. -/
theorem plainImage_wrong :
    ((Call.bufferToImage 0 0 64 0).run ⟨false, 0⟩ fun _ => plainImage).2 0 =
        { plainImage with intel_fmt := 0x002, bpp := 16, w := 16 } ∧
      ¬ ∀ steps images call, (Call.run steps images call).2 = images := by
  refine ⟨rfl, fun h => ?_⟩
  have hbpp := congrArg Image.bpp
    (congrFun (h ⟨false, 0⟩ (fun _ => plainImage) (.bufferToImage 0 0 64 0)) 0)
  exact absurd hbpp (by decide)

end Runtime.ImageDescriptors
