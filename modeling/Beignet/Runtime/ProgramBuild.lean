/-
Builds of a program that was created from source: `cl_program_build` and `cl_program_compile` in
`cl_program.c`, and the queries of the binary in `clGetProgramInfo` (`cl_api_program.c`).

The compiler, its programs and their serialization are parameters, and a call comes with what
happens outside in it.  The size of the blob is never set back, nor is `is_built` by a failure, and
the binary that a query leaves is kept when the program is compiled again.

* `build_consistent`, `compile_consistent`, `query_consistent` — one call;
* **`runs_consistent`** — the state after each call of a run.
-/
import Beignet.Lib.Buffer
import Beignet.Lib.Transition

namespace Runtime

namespace ProgramBuild

abbrev Bytes := List (BitVec 8)

inductive BuildStatus where
  | CL_BUILD_NONE
  | CL_BUILD_ERROR
  | CL_BUILD_SUCCESS

inductive BinaryType where
  | CL_PROGRAM_BINARY_TYPE_NONE
  | CL_PROGRAM_BINARY_TYPE_COMPILED_OBJECT
  | CL_PROGRAM_BINARY_TYPE_LIBRARY
  | CL_PROGRAM_BINARY_TYPE_EXECUTABLE
  deriving DecidableEq

open BuildStatus BinaryType

inductive Error where
  | CL_INVALID_OPERATION
  | CL_BUILD_PROGRAM_FAILURE
  | CL_COMPILE_PROGRAM_FAILURE
  | CL_COMPILER_NOT_AVAILABLE
  | CL_INVALID_BUILD_OPTIONS
  | CL_INVALID_COMPILER_OPTIONS
  | CL_OUT_OF_HOST_MEMORY

/-- `struct _cl_program`; `γ` are the programs of the compiler. -/
structure Program (γ : Type) where
  build_opts : Option String
  opaque_ : Option γ
  ker_n : ℕ
  binary_type : BinaryType
  bin_sz : BitVec 64
  bin : Option Bytes
  binary : Option Bytes
  is_built : Bool
  build_status : BuildStatus

/-- What is outside in a call of `cl_program_build`. -/
structure Build (γ : Type) where
  options : Option String
  ref : ℕ
  /-- `check_cl_version_option` -/
  version : Bool
  /-- the allocation of `build_opts` -/
  opts : Bool
  /-- `CompilerSupported` -/
  supported : Bool
  result : Option γ
  /-- the log has an error about the options -/
  badOptions : Bool
  /-- the allocations of `cl_program_load_gen_program` -/
  loaded : Bool
  /-- the allocation of `bin` -/
  blob : Bool
  /-- `get_program_global_data` -/
  globalData : Bool

/-- The same for `cl_program_compile`. -/
structure Compile (γ : Type) where
  options : Option String
  ref : ℕ
  version : Bool
  opts : Bool
  supported : Bool
  /-- the headers are written -/
  headers : Bool
  result : Option γ
  badOptions : Bool

inductive Query where
  | CL_PROGRAM_BINARY_SIZES
  /-- is there a `param_value`? -/
  | CL_PROGRAM_BINARIES (param_value : Bool)
  deriving DecidableEq

inductive Answer where
  | success
  | size (n : ℕ)
  | bytes (b : Bytes)
  | CL_INVALID_BINARY
  | CL_OUT_OF_RESOURCES

/-- A call on the program. -/
inductive Call (γ : Type) where
  | build (o : Build γ)
  | compile (o : Compile γ)
  | query (q : Query)

section

variable {γ : Type} (code : γ → List Bytes) (ocl_version : γ → ℕ)
  (serialize : γ → BinaryType → Option Bytes)

/-- `cl_program_create_from_source` -/
def created : Program γ :=
  ⟨none, none, 0, CL_PROGRAM_BINARY_TYPE_NONE, 0, none, none, false, CL_BUILD_NONE⟩

def fail (p : Program γ) (e : Error) : Option (Program γ × Option Error) :=
  some ({ p with build_status := CL_BUILD_ERROR }, some e)

def succeed (p : Program γ) : Option (Program γ × Option Error) :=
  some ({ p with is_built := true, build_status := CL_BUILD_SUCCESS }, none)

/-- `build_opts`, and whether it could be allocated. -/
def setOptions (p : Program γ) (options : Option String) (opts : Bool) : Program γ × Bool :=
  match options with
  | none => ({ p with build_opts := none }, true)
  | some options =>
    if p.build_opts = some options then (p, true)
    else if opts then ({ p with build_opts := some options }, true)
    else ({ p with build_opts := none }, false)

/-- The copy of the code, with an `int copyed`. -/
def copyCode : List Bytes → BitVec 32 → Bytes → Option Bytes
  | [], _, bin => some bin
  | code :: codes, copyed, bin =>
    if copyed.toInt < 0 then none
    else do
      let bin ← Buffer.write bin copyed.toNat code
      copyCode codes (copyed + BitVec.ofNat 32 code.length) bin

/-- `bin_sz` after the loop over the kernels. -/
def addSizes (bin_sz : BitVec 64) (codes : List Bytes) : BitVec 64 :=
  codes.foldl (fun sz code => sz + BitVec.ofNat 64 code.length) bin_sz

/-- After the program is loaded. -/
def finish (p : Program γ) (o : Build γ) (c : γ) : Option (Program γ × Option Error) :=
  let p := { p with
    binary_type := CL_PROGRAM_BINARY_TYPE_EXECUTABLE
    bin_sz := addSizes p.bin_sz (code c) }
  if ¬ o.blob then fail { p with bin := none } .CL_OUT_OF_HOST_MEMORY
  else do
    let bin ← copyCode (code c) 0 (List.replicate p.bin_sz.toNat 0)
    let p := { p with bin := some bin }
    if 200 ≤ ocl_version c ∧ ¬ o.globalData then fail p .CL_OUT_OF_HOST_MEMORY
    else succeed p

/-- On a program from source. -/
def cl_program_build (p : Program γ) (o : Build γ) : Option (Program γ × Option Error) :=
  if 1 < o.ref then fail p .CL_INVALID_OPERATION
  else if ¬ o.version then fail p .CL_BUILD_PROGRAM_FAILURE
  else
    let (p, ok) := setOptions p o.options o.opts
    if ¬ ok then fail p .CL_OUT_OF_HOST_MEMORY
    else if ¬ o.supported then fail p .CL_COMPILER_NOT_AVAILABLE
    else
      let p := { p with opaque_ := o.result }
      match o.result with
      | none =>
        fail p (if o.badOptions then .CL_INVALID_BUILD_OPTIONS else .CL_BUILD_PROGRAM_FAILURE)
      | some c =>
        let p := { p with ker_n := (code c).length }
        if ¬ o.loaded then fail p .CL_OUT_OF_HOST_MEMORY else finish code ocl_version p o c

def cl_program_compile (p : Program γ) (o : Compile γ) : Option (Program γ × Option Error) :=
  if 1 < o.ref then fail p .CL_INVALID_OPERATION
  else if ¬ o.version then fail p .CL_BUILD_PROGRAM_FAILURE
  else
    let (p, ok) := setOptions p o.options o.opts
    if ¬ ok then fail p .CL_OUT_OF_HOST_MEMORY
    else if ¬ o.supported then fail p .CL_COMPILER_NOT_AVAILABLE
    else if ¬ o.headers then fail p .CL_COMPILE_PROGRAM_FAILURE
    else
      let p := { p with opaque_ := o.result }
      match o.result with
      | none =>
        fail p (if o.badOptions then .CL_INVALID_COMPILER_OPTIONS else .CL_COMPILE_PROGRAM_FAILURE)
      | some _ => succeed { p with binary_type := CL_PROGRAM_BINARY_TYPE_COMPILED_OBJECT }

/-- The binary is made when there is none; without a program that has no result. -/
def fillBinary (p : Program γ) : Option (Program γ) :=
  match p.binary, p.opaque_ with
  | some _, _ => some p
  | none, some c => some { p with binary := serialize c p.binary_type }
  | none, none => none

def clGetProgramInfo (p : Program γ) (q : Query) : Option (Program γ × Answer) :=
  if q = .CL_PROGRAM_BINARIES false then some (p, .success)
  else if p.binary = none ∧ p.binary_type = CL_PROGRAM_BINARY_TYPE_NONE then
    some (p, .CL_INVALID_BINARY)
  else do
    let p ← fillBinary serialize p
    match p.binary, q with
    | none, _ => some (p, .CL_OUT_OF_RESOURCES)
    | some b, .CL_PROGRAM_BINARY_SIZES =>
      some (p, if b.length = 0 then .CL_OUT_OF_RESOURCES else .size b.length)
    | some b, .CL_PROGRAM_BINARIES _ =>
      some (p, if b.length = 0 then .CL_OUT_OF_RESOURCES else .bytes b)

/-! ### Runs -/

/-- The last build or compilation: was it a build, and did it succeed? -/
structure Last where
  build : Bool
  success : Bool

/-- The program and its last build. -/
structure State (γ : Type) where
  program : Program γ
  last : Option Last

/-- A call. -/
def next (s : State γ) : Call γ → Option (State γ)
  | .build o => do
    let (p, err) ← cl_program_build code ocl_version s.program o
    some ⟨p, some ⟨true, err.isNone⟩⟩
  | .compile o => do
    let (p, err) ← cl_program_compile s.program o
    some ⟨p, some ⟨false, err.isNone⟩⟩
  | .query q => do
    let (p, _) ← clGetProgramInfo serialize s.program q
    some { s with program := p }

/-- The blob, the flag and the binary belong to the program that was compiled last. -/
structure Consistent (s : State γ) : Prop where
  blob : s.last.map Last.build = some true → s.program.build_status = CL_BUILD_SUCCESS →
    ∃ c, s.program.opaque_ = some c ∧ s.program.bin_sz.toNat = (code c).flatten.length ∧
      s.program.bin = some (code c).flatten
  is_built : s.program.is_built → s.last.map Last.success = some true
  binary : ∀ b, s.program.binary = some b →
    ∃ c, s.program.opaque_ = some c ∧ serialize c s.program.binary_type = some b

end

/-! ### The condition -/

section

variable {γ : Type} (code : γ → List Bytes) (ocl_version : γ → ℕ)
  (serialize : γ → BinaryType → Option Bytes)

/-- The compiler is called. -/
def Build.Reaches (p : Program γ) (o : Build γ) : Prop :=
  o.ref ≤ 1 ∧ o.version ∧ (setOptions p o.options o.opts).2 ∧ o.supported

/-- The kernels are loaded. -/
def Build.Loads (p : Program γ) (o : Build γ) : Prop :=
  o.Reaches p ∧ o.result.isSome ∧ o.loaded

def Build.Succeeds (p : Program γ) (o : Build γ) : Prop :=
  o.Loads p ∧ o.blob ∧ ∀ c ∈ o.result, ocl_version c < 200 ∨ o.globalData

def Compile.Reaches (p : Program γ) (o : Compile γ) : Prop :=
  o.ref ≤ 1 ∧ o.version ∧ (setOptions p o.options o.opts).2 ∧ o.supported ∧ o.headers

def Compile.Succeeds (p : Program γ) (o : Compile γ) : Prop := o.Reaches p ∧ o.result.isSome

/-- A binary that there is belongs to the new program. -/
def Cached (p : Program γ) (result : Option γ) (type : BinaryType) : Prop :=
  ∀ b, p.binary = some b → ∃ c, result = some c ∧ serialize c type = some b

/-- A call that fails finds the flag cleared; one that compiles finds no binary, or that of the same
program; a build that succeeds finds the size cleared; the code has less than 2 ^ 31 bytes; and a
binary is made of a program only. -/
def Meets (s : State γ) : Call γ → Prop
  | .build o =>
    (¬ o.Succeeds ocl_version s.program → s.program.is_built = false) ∧
    (o.Loads s.program → Cached serialize s.program o.result CL_PROGRAM_BINARY_TYPE_EXECUTABLE) ∧
    (o.Reaches s.program → ¬ o.Loads s.program →
      Cached serialize s.program o.result s.program.binary_type) ∧
    (o.Succeeds ocl_version s.program → s.program.bin_sz = 0) ∧
    (o.Loads s.program → o.blob → ∀ c ∈ o.result, (code c).flatten.length < 2 ^ 31 ∧
      s.program.bin_sz.toNat + (code c).flatten.length < 2 ^ 64)
  | .compile o =>
    (¬ o.Succeeds s.program → s.program.is_built = false) ∧
    (o.Reaches s.program → Cached serialize s.program o.result
      (if o.result.isSome then CL_PROGRAM_BINARY_TYPE_COMPILED_OBJECT else s.program.binary_type))
  | .query q =>
    q ≠ .CL_PROGRAM_BINARIES false → s.program.binary = none →
      s.program.binary_type ≠ CL_PROGRAM_BINARY_TYPE_NONE → s.program.opaque_ ≠ none

/-! ### The code -/

theorem addSizes_eq (sz : BitVec 64) (codes : List Bytes) :
    addSizes sz codes = sz + BitVec.ofNat 64 codes.flatten.length := by
  induction codes generalizing sz with
  | nil => simp [addSizes]
  | cons c codes ih =>
    rw [addSizes, List.foldl_cons, ← addSizes, ih, List.flatten_cons, List.length_append,
      BitVec.ofNat_add, BitVec.add_assoc]

/-- The code in a blob that has room for it. -/
theorem copyCode_eq {codes : List Bytes} {copyed : BitVec 32} {bin : Bytes}
    (hint : copyed.toNat + codes.flatten.length < 2 ^ 31)
    (hroom : copyed.toNat + codes.flatten.length ≤ bin.length) :
    copyCode codes copyed bin = some (bin.take copyed.toNat ++ codes.flatten ++
      bin.drop (copyed.toNat + codes.flatten.length)) := by
  induction codes generalizing copyed bin with
  | nil => simp [copyCode]
  | cons c codes ih =>
    rw [List.flatten_cons, List.length_append] at hint hroom ⊢
    have hpos : ¬ copyed.toInt < 0 := by
      rw [BitVec.toInt_eq_toNat_of_lt (by omega)]
      omega
    have hnext : (copyed + BitVec.ofNat 32 c.length).toNat = copyed.toNat + c.length := by
      rw [BitVec.toNat_add, BitVec.toNat_ofNat]
      omega
    have htake : (bin.take copyed.toNat).length = copyed.toNat := by
      rw [List.length_take]
      omega
    rw [copyCode, if_neg hpos, Buffer.write_of_le (by omega), Option.bind_eq_bind,
      Option.bind_some, ih (by omega) (by
        simp only [List.length_append, List.length_take, List.length_drop]
        omega), hnext]
    congr 1
    rw [List.take_left' (by rw [List.length_append, htake]),
      List.drop_append, List.drop_eq_nil_of_le (by rw [List.length_append, htake]; omega)]
    simp [List.length_append, htake, Nat.add_assoc]

theorem setOptions_eq (p : Program γ) (options : Option String) (opts : Bool) :
    ∃ build_opts, (setOptions p options opts).1 = { p with build_opts := build_opts } := by
  cases options with
  | none => exact ⟨none, rfl⟩
  | some options =>
    rw [setOptions]
    split
    · exact ⟨p.build_opts, rfl⟩
    · split
      · exact ⟨some options, rfl⟩
      · exact ⟨none, rfl⟩

variable {code ocl_version serialize}

/-- A failure. -/
theorem consistent_fail {p : Program γ} (hbuilt : p.is_built = false)
    (hcached : Cached serialize p p.opaque_ p.binary_type) (build : Bool) :
    Consistent code serialize
      ⟨{ p with build_status := CL_BUILD_ERROR }, some ⟨build, false⟩⟩ := by
  refine ⟨fun _ h => ?_, fun h => ?_, hcached⟩
  · cases h
  · exact absurd (hbuilt.symm.trans h) Bool.false_ne_true

/-- A build keeps the state consistent. -/
theorem build_consistent {s : State γ} {o : Build γ} (h : Consistent code serialize s)
    (hmeets : Meets code ocl_version serialize s (.build o)) :
    ∃ s', next code ocl_version serialize s (.build o) = some s' ∧
      Consistent code serialize s' := by
  obtain ⟨p, last⟩ := s
  obtain ⟨hfail, hloads, hreaches, hsz, hfits⟩ := hmeets
  have hbinary : Cached serialize p p.opaque_ p.binary_type := h.binary
  obtain ⟨build_opts, hopts⟩ := setOptions_eq p o.options o.opts
  simp only [next, cl_program_build]
  -- a failure before the compiler is called
  by_cases href : 1 < o.ref
  · have hnot : ¬ o.Succeeds ocl_version p := fun hs => absurd hs.1.1.1 (by omega)
    rw [if_pos href]
    exact ⟨_, rfl, consistent_fail (hfail hnot) hbinary true⟩
  rw [if_neg href]
  by_cases hversion : o.version = true
  swap
  · have hnot : ¬ o.Succeeds ocl_version p := fun hs => hversion hs.1.1.2.1
    rw [if_pos hversion]
    exact ⟨_, rfl, consistent_fail (hfail hnot) hbinary true⟩
  rw [if_neg (not_not.mpr hversion)]
  rcases hset : setOptions p o.options o.opts with ⟨p1, ok⟩
  rw [hset] at hopts
  obtain rfl : p1 = { p with build_opts := build_opts } := hopts
  have hok : (setOptions p o.options o.opts).2 = ok := by rw [hset]
  cases ok with
  | false =>
    have hnot : ¬ o.Succeeds ocl_version p := fun hs =>
      absurd (hok.symm.trans hs.1.1.2.2.1) Bool.false_ne_true
    exact ⟨_, rfl, consistent_fail (p := { p with build_opts := build_opts }) (hfail hnot)
      hbinary true⟩
  | true =>
  by_cases hsupported : o.supported = true
  swap
  · have hnot : ¬ o.Succeeds ocl_version p := fun hs => hsupported hs.1.1.2.2.2
    simp only [not_true, if_false, if_pos hsupported]
    exact ⟨_, rfl, consistent_fail (p := { p with build_opts := build_opts }) (hfail hnot)
      hbinary true⟩
  have hreach : o.Reaches p := ⟨by omega, hversion, hok, hsupported⟩
  simp only [not_true, if_false, if_neg (not_not.mpr hsupported)]
  -- the compiler is called
  cases hresult : o.result with
  | none =>
    have hnot : ¬ o.Loads p := fun hl => by
      have hsome := hl.2.1
      rw [hresult] at hsome
      cases hsome
    refine ⟨_, rfl, consistent_fail
      (p := { p with build_opts := build_opts, opaque_ := none })
      (hfail fun hs => hnot hs.1) ?_ true⟩
    rw [← hresult]
    exact hreaches hreach hnot
  | some c =>
    by_cases hloaded : o.loaded = true
    swap
    · have hnot : ¬ o.Loads p := fun hl => hloaded hl.2.2
      simp only [if_pos hloaded]
      refine ⟨_, rfl, consistent_fail (p := { p with
        build_opts := build_opts, opaque_ := some c, ker_n := (code c).length })
        (hfail fun hs => hnot hs.1) ?_ true⟩
      rw [← hresult]
      exact hreaches hreach hnot
    have hload : o.Loads p := ⟨hreach, by rw [hresult]; rfl, hloaded⟩
    have hcached := hloads hload
    rw [hresult] at hcached
    simp only [if_neg (not_not.mpr hloaded), finish]
    by_cases hblob : o.blob = true
    swap
    · have hnot : ¬ o.Succeeds ocl_version p := fun hs => hblob hs.2.1
      simp only [if_pos hblob]
      exact ⟨_, rfl, consistent_fail (p := { p with
        build_opts := build_opts, opaque_ := some c, ker_n := (code c).length
        binary_type := CL_PROGRAM_BINARY_TYPE_EXECUTABLE
        bin_sz := addSizes p.bin_sz (code c), bin := none }) (hfail hnot) hcached true⟩
    obtain ⟨hint, hroom⟩ := hfits hload hblob c hresult
    replace hroom : p.bin_sz.toNat + (code c).flatten.length < 2 ^ 64 := hroom
    have hsum : (addSizes p.bin_sz (code c)).toNat =
        p.bin_sz.toNat + (code c).flatten.length := by
      rw [addSizes_eq, BitVec.toNat_add, BitVec.toNat_ofNat]
      omega
    have hroom' : (0 : BitVec 32).toNat + (code c).flatten.length ≤
        (List.replicate (addSizes p.bin_sz (code c)).toNat (0 : BitVec 8)).length := by
      rw [List.length_replicate, hsum]
      exact Nat.add_le_add_right (Nat.zero_le _) _
    have hcopy := copyCode_eq (by simpa using hint) hroom'
    simp only [if_neg (not_not.mpr hblob), hcopy, Option.bind_eq_bind, Option.bind_some]
    by_cases hglobal : 200 ≤ ocl_version c ∧ ¬ o.globalData = true
    · have hnot : ¬ o.Succeeds ocl_version p := by
        intro hs
        rcases hs.2.2 c hresult with hlt | hdata
        · omega
        · exact hglobal.2 hdata
      simp only [if_pos hglobal]
      exact ⟨_, rfl, consistent_fail (p := { p with
        build_opts := build_opts, opaque_ := some c, ker_n := (code c).length
        binary_type := CL_PROGRAM_BINARY_TYPE_EXECUTABLE
        bin_sz := addSizes p.bin_sz (code c)
        bin := _ }) (hfail hnot) hcached true⟩
    · have hsucceeds : o.Succeeds ocl_version p := by
        refine ⟨hload, hblob, fun c' hc' => ?_⟩
        obtain rfl : c = c' := Option.some.inj (hresult.symm.trans hc')
        by_cases hversion' : 200 ≤ ocl_version c
        · exact .inr (not_not.mp fun hdata => hglobal ⟨hversion', hdata⟩)
        · exact .inl (by omega)
      have hzero : p.bin_sz.toNat = 0 := by
        rw [show p.bin_sz = 0 from hsz hsucceeds]
        rfl
      simp only [if_neg hglobal, succeed]
      refine ⟨_, rfl, ⟨fun _ _ => ⟨c, rfl, ?_, ?_⟩, fun _ => rfl, hcached⟩⟩
      · rw [hsum, hzero, Nat.zero_add]
      · rw [hsum, hzero]
        simp

/-- A compilation keeps the state consistent. -/
theorem compile_consistent {s : State γ} {o : Compile γ} (h : Consistent code serialize s)
    (hmeets : Meets code ocl_version serialize s (.compile o)) :
    ∃ s', next code ocl_version serialize s (.compile o) = some s' ∧
      Consistent code serialize s' := by
  obtain ⟨p, last⟩ := s
  obtain ⟨hfail, hreaches⟩ := hmeets
  have hbinary : Cached serialize p p.opaque_ p.binary_type := h.binary
  obtain ⟨build_opts, hopts⟩ := setOptions_eq p o.options o.opts
  simp only [next, cl_program_compile]
  by_cases href : 1 < o.ref
  · have hnot : ¬ o.Succeeds p := fun hs => absurd hs.1.1 (by omega)
    rw [if_pos href]
    exact ⟨_, rfl, consistent_fail (hfail hnot) hbinary false⟩
  rw [if_neg href]
  by_cases hversion : o.version = true
  swap
  · have hnot : ¬ o.Succeeds p := fun hs => hversion hs.1.2.1
    rw [if_pos hversion]
    exact ⟨_, rfl, consistent_fail (hfail hnot) hbinary false⟩
  rw [if_neg (not_not.mpr hversion)]
  rcases hset : setOptions p o.options o.opts with ⟨p1, ok⟩
  rw [hset] at hopts
  obtain rfl : p1 = { p with build_opts := build_opts } := hopts
  have hok : (setOptions p o.options o.opts).2 = ok := by rw [hset]
  cases ok with
  | false =>
    have hnot : ¬ o.Succeeds p := fun hs =>
      absurd (hok.symm.trans hs.1.2.2.1) Bool.false_ne_true
    exact ⟨_, rfl, consistent_fail (p := { p with build_opts := build_opts }) (hfail hnot)
      hbinary false⟩
  | true =>
  by_cases hsupported : o.supported = true
  swap
  · have hnot : ¬ o.Succeeds p := fun hs => hsupported hs.1.2.2.2.1
    simp only [not_true, if_false, if_pos hsupported]
    exact ⟨_, rfl, consistent_fail (p := { p with build_opts := build_opts }) (hfail hnot)
      hbinary false⟩
  by_cases hheaders : o.headers = true
  swap
  · have hnot : ¬ o.Succeeds p := fun hs => hheaders hs.1.2.2.2.2
    simp only [not_true, if_false, if_neg (not_not.mpr hsupported), if_pos hheaders]
    exact ⟨_, rfl, consistent_fail (p := { p with build_opts := build_opts }) (hfail hnot)
      hbinary false⟩
  have hcached := hreaches ⟨by omega, hversion, hok, hsupported, hheaders⟩
  simp only [not_true, if_false, if_neg (not_not.mpr hsupported),
    if_neg (not_not.mpr hheaders)]
  cases hresult : o.result with
  | none =>
    have hnot : ¬ o.Succeeds p := fun hs => by
      have hsome := hs.2
      rw [hresult] at hsome
      cases hsome
    rw [hresult] at hcached
    exact ⟨_, rfl, consistent_fail
      (p := { p with build_opts := build_opts, opaque_ := none }) (hfail hnot) hcached false⟩
  | some c =>
    rw [hresult] at hcached
    refine ⟨_, rfl, ⟨fun hlast => ?_, fun _ => rfl, hcached⟩⟩
    cases hlast

/-- A query keeps the state consistent. -/
theorem query_consistent {s : State γ} {q : Query} (h : Consistent code serialize s)
    (hmeets : Meets code ocl_version serialize s (.query q)) :
    ∃ s', next code ocl_version serialize s (.query q) = some s' ∧
      Consistent code serialize s' := by
  obtain ⟨p, last⟩ := s
  simp only [next, clGetProgramInfo]
  by_cases hq : q = .CL_PROGRAM_BINARIES false
  · rw [if_pos hq]
    exact ⟨_, rfl, h⟩
  rw [if_neg hq]
  by_cases hnone : p.binary = none ∧ p.binary_type = CL_PROGRAM_BINARY_TYPE_NONE
  · rw [if_pos hnone]
    exact ⟨_, rfl, h⟩
  rw [if_neg hnone]
  have hfill : ∃ p', fillBinary serialize p = some p' ∧
      Consistent code serialize ⟨p', last⟩ := by
    cases hbinary : p.binary with
    | some b => exact ⟨p, by rw [fillBinary, hbinary], h⟩
    | none =>
      have hsome := hmeets hq hbinary fun htype => hnone ⟨hbinary, htype⟩
      obtain ⟨c, hc⟩ := Option.ne_none_iff_exists'.mp hsome
      replace hc : p.opaque_ = some c := hc
      exact ⟨{ p with binary := serialize c p.binary_type }, by rw [fillBinary, hbinary, hc],
        h.blob, h.is_built, fun b hb => ⟨c, hc, hb⟩⟩
  obtain ⟨p', hp', hconsistent⟩ := hfill
  refine ⟨⟨p', last⟩, ?_, hconsistent⟩
  simp only [hp', Option.bind_eq_bind, Option.bind_some]
  cases p'.binary with
  | none => rfl
  | some b =>
    cases q with
    | CL_PROGRAM_BINARY_SIZES => rfl
    | CL_PROGRAM_BINARIES value => rfl

variable (code ocl_version serialize)

/-- Builds, compilations and queries of a program from source: if each call meets its condition,
each of them returns and leaves a consistent state. -/
theorem runs_consistent (calls : List (Call γ))
    (h : Transition.StepsMeet (next code ocl_version serialize)
      (Meets code ocl_version serialize) ⟨created, none⟩ calls) :
    ∀ pre post, calls = pre ++ post → ∃ s,
      Transition.exec (next code ocl_version serialize) ⟨created, none⟩ pre = some s ∧
        Consistent code serialize s := by
  refine Transition.exec_total_invariant ?_ ?_ h
  · intro s call hs hmeets
    cases call with
    | build o => exact build_consistent hs hmeets
    | compile o => exact compile_consistent hs hmeets
    | query q => exact query_consistent hs hmeets
  · refine ⟨fun hlast => ?_, fun hbuilt => ?_, fun b hb => ?_⟩
    · cases hlast
    · cases hbuilt
    · cases hb

end

/-! ### Examples -/

/-- A program is its code; the binary is the code with the type in front. -/
def sampleCode (c : List Bytes) : List Bytes := c

def sampleSerialize (c : List Bytes) : BinaryType → Option Bytes
  | CL_PROGRAM_BINARY_TYPE_EXECUTABLE => some (0 :: c.flatten)
  | _ => some (1 :: c.flatten)

/-- A build in which nothing fails. -/
def sampleBuild (c : List Bytes) : Build (List Bytes) :=
  ⟨none, 1, true, true, true, some c, false, true, true, true⟩

/-- One build and a query. -/
theorem runs_consistent_build : ∃ s,
    Transition.exec (next sampleCode (fun _ => 120) sampleSerialize) ⟨created, none⟩
        [.build (sampleBuild [[1, 2], [3]]), .query (.CL_PROGRAM_BINARIES true)] = some s ∧
      Consistent sampleCode sampleSerialize s := by
  refine runs_consistent sampleCode (fun _ => 120) sampleSerialize
    [.build (sampleBuild [[1, 2], [3]]), .query (.CL_PROGRAM_BINARIES true)] ?_ _ [] rfl
  refine ⟨⟨fun _ => rfl, ?_, ?_, fun _ => rfl, ?_⟩, fun s hs => ⟨?_, fun _ _ => trivial⟩⟩
  · intro _ b hb
    cases hb
  · intro _ _ b hb
    cases hb
  · rintro _ _ c ⟨⟩
    decide
  · cases hs
    intro _ _ _ h
    cases h

/-- The second build of a program adds to the size of the first. -/
theorem not_consistent_twice : ∃ s,
    Transition.exec (next sampleCode (fun _ => 120) sampleSerialize) ⟨created, none⟩
        [.build (sampleBuild [[1, 2], [3]]), .build (sampleBuild [[1, 2], [3]])] = some s ∧
      ¬ Consistent sampleCode sampleSerialize s := by
  refine ⟨_, rfl, fun h => ?_⟩
  obtain ⟨c, hc, hsz, -⟩ := h.blob rfl rfl
  cases hc
  revert hsz
  decide

end ProgramBuild

end Runtime
