/-
The holes of registers (`GenRegAllocator::Opaque::allocate`, `gen_reg_allocation.cpp`).

While the intervals of a block are computed, a full write of a register that was read before
leaves a hole, from behind the last read to before the write.  Nothing resets the last read:
a second write without a read between gives a second hole, around the first write.  Writes
of a part of a register and uses as a flag are not looked at.

* `sound_iff` — when the holes of a sequence of blocks are apart and empty;
* `Inv.placedSound` — registers put into disjoint holes are apart, each in its hole;
* **`hole_pool_sound_iff`** — both, for every run of the allocator.

`createGenReg` is the one of `RegAllocation`, with its fitness in single precision.
-/
import Beignet.Backend.LinearScan
import Beignet.Backend.RegisterMaps

namespace Backend

namespace HolePool

open GenRegAllocator

open RegisterMaps (barrierid groupid0 groupid1 groupid2 specialRegNum)

/-! ### The instructions -/

structure Source where
  reg : ℕ
  /-- the file is `GEN_GENERAL_REGISTER_FILE` -/
  general : Bool
  /-- `insn.isNative() && insn.sameAsDstRegion(srcID)` -/
  simple : Bool

structure Dest where
  reg : ℕ
  general : Bool
  subphysical : Bool

structure SelInsn where
  src : List Source
  dst : List Dest
  /-- the virtual flag, as predicate or conditional modifier -/
  flag : Option ℕ

/-- The registers in `r0`. -/
def inR0 (reg : ℕ) : Bool :=
  reg == barrierid || reg == groupid0 || reg == groupid1 || reg == groupid2

/-- `insnsrcID` -/
def Source.id (src : Source) (insnID : ℤ) : ℤ := if src.simple then insnID - 1 else insnID

/-- `blockIntervals` and the holes of the block so far. -/
structure Build where
  useID : ℕ → Option ℤ
  holes : List HoleRegTag

def visitSrc (insnID : ℤ) (b : Build) (src : Source) : Build :=
  if !src.general || inR0 src.reg then b
  else { b with useID := Function.update b.useID src.reg (some (src.id insnID)) }

/-- A hole, if the register was read before and not just now. -/
def leaveHole (regSize : ℕ → ℤ) (b : Build) (reg : ℕ) (insnID : ℤ) : Build :=
  match b.useID reg with
  | none => b
  | some useID =>
    if specialRegNum ≤ reg ∧ 0 ≤ useID ∧ useID < insnID - 1 then
      { b with holes := b.holes ++ [⟨useID + 1, insnID - 1, regSize reg, reg⟩] }
    else b

def visitDst (regSize : ℕ → ℤ) (insnID : ℤ) (b : Build) (dst : Dest) : Build :=
  if !dst.general || inR0 dst.reg then b
  else if dst.subphysical then b
  else leaveHole regSize b dst.reg insnID

def visit (regSize : ℕ → ℤ) (insnID : ℤ) (b : Build) (insn : SelInsn) : Build :=
  insn.dst.foldl (visitDst regSize insnID) (insn.src.foldl (visitSrc insnID) b)

/-- The loop over a block. -/
def buildBlock (regSize : ℕ → ℤ) : List SelInsn → ℤ → Build → Build
  | [], _, b => b
  | insn :: rest, insnID, b => buildBlock regSize rest (insnID + 2) (visit regSize insnID b insn)

def blockHoles (regSize : ℕ → ℤ) (block : List SelInsn) (firstID : ℤ) : List HoleRegTag :=
  (buildBlock regSize block firstID ⟨fun _ => none, []⟩).holes

/-- The number of the first instruction of a block. -/
def firstID (blocks : List (List SelInsn)) (b : ℕ) : ℤ :=
  2 * ((blocks.take b).map List.length).sum

/-- `HoleRegPool` -/
def pool (regSize : ℕ → ℤ) (blocks : List (List SelInsn)) (b : ℤ) : List HoleRegTag :=
  if 0 ≤ b then
    match blocks[b.toNat]? with
    | none => []
    | some block => blockHoles regSize block (firstID blocks b.toNat)
  else []

/-! ### Occurrences -/

inductive Kind where
  /-- read as a source -/
  | use
  /-- written as a whole -/
  | define
  /-- written in part -/
  | part
  /-- used or set as a flag -/
  | flag
  deriving DecidableEq

structure Occurrence where
  reg : ℕ
  id : ℤ
  kind : Kind

/-- The occurrences of registers in an instruction, in the order of the loops. -/
def SelInsn.occurrences (insn : SelInsn) (insnID : ℤ) : List Occurrence :=
  (insn.src.filter fun src => src.general && !inR0 src.reg).map
      (fun src => ⟨src.reg, src.id insnID, .use⟩) ++
    ((insn.dst.filter fun dst => dst.general && !inR0 dst.reg).map
      (fun dst => ⟨dst.reg, insnID, if dst.subphysical then .part else .define⟩) ++
    insn.flag.toList.map fun reg => ⟨reg, insnID, .flag⟩)

def occurrences : List SelInsn → ℤ → List Occurrence
  | [], _ => []
  | insn :: rest, insnID => insn.occurrences insnID ++ occurrences rest (insnID + 2)

/-- One occurrence more. -/
def see (regSize : ℕ → ℤ) (b : Build) (o : Occurrence) : Build :=
  match o.kind with
  | .use => { b with useID := Function.update b.useID o.reg (some o.id) }
  | .define => leaveHole regSize b o.reg o.id
  | .part | .flag => b

theorem foldl_visitSrc (regSize : ℕ → ℤ) (insnID : ℤ) (src : List Source) (b : Build) :
    src.foldl (visitSrc insnID) b =
      ((src.filter fun src => src.general && !inR0 src.reg).map
        fun src => ⟨src.reg, src.id insnID, .use⟩).foldl (see regSize) b := by
  rw [List.foldl_map, List.foldl_filter]
  congr 1
  funext b x
  rw [visitSrc]
  cases x.general <;> cases inR0 x.reg <;> rfl

theorem foldl_visitDst (regSize : ℕ → ℤ) (insnID : ℤ) (dst : List Dest) (b : Build) :
    dst.foldl (visitDst regSize insnID) b =
      ((dst.filter fun dst => dst.general && !inR0 dst.reg).map
        fun dst => ⟨dst.reg, insnID, if dst.subphysical then .part else .define⟩).foldl
          (see regSize) b := by
  rw [List.foldl_map, List.foldl_filter]
  congr 1
  funext b x
  rw [visitDst]
  cases x.general <;> cases inR0 x.reg <;> cases x.subphysical <;> simp [see]

/-- The loop sees the occurrences one after another. -/
theorem buildBlock_eq (regSize : ℕ → ℤ) (block : List SelInsn) (insnID : ℤ) (b : Build) :
    buildBlock regSize block insnID b = (occurrences block insnID).foldl (see regSize) b := by
  induction block generalizing insnID b with
  | nil => rfl
  | cons insn rest ih =>
    have hflag : ∀ c : Build, (insn.flag.toList.map fun reg =>
        (⟨reg, insnID, .flag⟩ : Occurrence)).foldl (see regSize) c = c := by
      intro c
      cases insn.flag <;> rfl
    rw [buildBlock, ih, occurrences, List.foldl_append, visit, foldl_visitSrc regSize,
      foldl_visitDst, SelInsn.occurrences, List.foldl_append, List.foldl_append, hflag]

/-! ### One block -/

section Block

variable {regSize : ℕ → ℤ} {occs pre post : List Occurrence} {o : Occurrence} {reg : ℕ} {u : ℤ}

/-- A register that is read is not read again in the list. -/
def Unread (reg : ℕ) (occs : List Occurrence) : Prop :=
  ∀ o ∈ occs, o.reg = reg → o.kind ≠ .use

/-- Wherever a register is read, not read again and then written with a distance, there is
nothing of it between: it is not written or used as a flag, and the instruction that reads it
does neither. -/
def Gapless (occs : List Occurrence) : Prop :=
  ∀ pre mid post reg u d, occs = pre ++ ⟨reg, u, .use⟩ :: (mid ++ ⟨reg, d, .define⟩ :: post) →
    Unread reg mid → specialRegNum ≤ reg → 0 ≤ u → u < d - 1 →
      ∀ o ∈ pre ++ mid, o.reg = reg → o.id ≤ u ∨ o.id = d ∧ o.kind ≠ .define

/-- The two holes have no place in common if they are holes of one register. -/
def Apart (t t' : HoleRegTag) : Prop :=
  t.reg = t'.reg → t.endID < t'.startID ∨ t'.endID < t.startID

/-- The hole has none of the occurrences of its register. -/
def Clear (occs : List Occurrence) (t : HoleRegTag) : Prop :=
  ∀ o ∈ occs, o.reg = t.reg → o.id < t.startID ∨ t.endID < o.id

/-- Occurrences are in order where one of them writes the whole register. -/
def Ordered (occs : List Occurrence) : Prop :=
  occs.Pairwise fun o o' => o.kind = .define ∨ o'.kind = .define → o.id ≤ o'.id

variable (regSize) in
def build (occs : List Occurrence) : Build := occs.foldl (see regSize) ⟨fun _ => none, []⟩

theorem build_append : build regSize (occs ++ [o]) = see regSize (build regSize occs) o := by
  rw [build, List.foldl_append]
  rfl

/-- When a write leaves a hole. -/
def Leaves (reg : ℕ) (u d : ℤ) : Prop := specialRegNum ≤ reg ∧ 0 ≤ u ∧ u < d - 1

theorem leaveHole_useID (b : Build) (reg : ℕ) (d : ℤ) :
    (leaveHole regSize b reg d).useID = b.useID := by
  rw [leaveHole]
  split
  · rfl
  · split <;> rfl

theorem useID_append (h : o.kind ≠ .use) :
    (build regSize (occs ++ [o])).useID = (build regSize occs).useID := by
  rw [build_append, see]
  cases hkind : o.kind with
  | use => exact absurd hkind h
  | define => exact leaveHole_useID ..
  | part => rfl
  | flag => rfl

theorem useID_append_use (h : o.kind = .use) :
    (build regSize (occs ++ [o])).useID =
      Function.update (build regSize occs).useID o.reg (some o.id) := by
  rw [build_append, see, h]

/-- The last read is what is remembered. -/
theorem useID_iff : (build regSize occs).useID reg = some u ↔
    ∃ pre mid, occs = pre ++ ⟨reg, u, .use⟩ :: mid ∧ Unread reg mid := by
  induction occs using List.reverseRecOn with
  | nil => simp [build]
  | append_singleton occs o ih =>
    by_cases hmine : o.reg = reg ∧ o.kind = .use
    · obtain ⟨rfl, hkind⟩ := hmine
      rw [useID_append_use hkind, Function.update_self, Option.some_inj]
      constructor
      · rintro rfl
        refine ⟨occs, [], ?_, fun _ hmem => absurd hmem List.not_mem_nil⟩
        rw [← hkind]
      · rintro ⟨pre, mid, heq, hunread⟩
        rcases List.eq_nil_or_concat mid with rfl | ⟨mid, last, rfl⟩
        · have := (List.append_inj' heq rfl).2
          rw [List.singleton_inj.mp this]
        · rw [List.concat_eq_append, ← List.cons_append, ← List.append_assoc] at heq
          obtain rfl := List.singleton_inj.mp (List.append_inj' heq rfl).2
          exact absurd hkind (hunread o (by simp) rfl)
    · have hsame : (build regSize (occs ++ [o])).useID reg = (build regSize occs).useID reg := by
        by_cases hkind : o.kind = .use
        · rw [useID_append_use hkind, Function.update_of_ne]
          exact fun heq => hmine ⟨heq.symm, hkind⟩
        · rw [useID_append hkind]
      rw [hsame, ih]
      constructor
      · rintro ⟨pre, mid, rfl, hunread⟩
        refine ⟨pre, mid ++ [o], by simp, ?_⟩
        intro o' ho' hreg hkind
        rcases List.mem_append.mp ho' with ho' | ho'
        · exact hunread o' ho' hreg hkind
        · rw [List.mem_singleton.mp ho'] at hreg hkind
          exact hmine ⟨hreg, hkind⟩
      · rintro ⟨pre, mid, heq, hunread⟩
        rcases List.eq_nil_or_concat mid with rfl | ⟨mid, last, rfl⟩
        · have := List.singleton_inj.mp (List.append_inj' heq rfl).2
          exact absurd ⟨by rw [this], by rw [this]⟩ hmine
        · rw [List.concat_eq_append, ← List.cons_append, ← List.append_assoc] at heq
          exact ⟨pre, mid, (List.append_inj' heq rfl).1,
            fun o' ho' => hunread o' (by simp [ho'])⟩

/-- Nothing of the register is between its last read `u` and the write `o`. -/
def GapAt (occs : List Occurrence) (o : Occurrence) (u : ℤ) : Prop :=
  ∀ o' ∈ occs, o'.reg = o.reg → o'.id ≤ u ∨ o'.id = o.id ∧ o'.kind ≠ .define

variable (regSize) in
theorem gapless_append : Gapless (occs ++ [o]) ↔ Gapless occs ∧
    (o.kind = .define → ∀ u, (build regSize occs).useID o.reg = some u →
      Leaves o.reg u o.id → GapAt occs o u) := by
  constructor
  · intro h
    refine ⟨?_, ?_⟩
    · intro pre mid post reg u d heq
      refine h pre mid (post ++ [o]) reg u d ?_
      rw [heq]
      simp
    · intro hkind u huse hleaves o' ho' hreg
      obtain ⟨pre, mid, rfl, hunread⟩ := useID_iff.mp huse
      have heq : pre ++ ⟨o.reg, u, .use⟩ :: mid ++ [o] =
          pre ++ ⟨o.reg, u, .use⟩ :: (mid ++ ⟨o.reg, o.id, .define⟩ :: []) := by
        rw [← hkind]
        simp
      have hgap := h pre mid [] o.reg u o.id heq hunread hleaves.1 hleaves.2.1 hleaves.2.2
      rcases List.mem_append.mp ho' with ho' | ho'
      · exact hgap o' (List.mem_append_left _ ho') hreg
      · rcases List.mem_cons.mp ho' with rfl | ho'
        · exact .inl le_rfl
        · exact hgap o' (List.mem_append_right _ ho') hreg
  · rintro ⟨h, hnew⟩ pre mid post reg u d heq hunread hspecial hu hd o' ho' hreg
    rcases List.eq_nil_or_concat post with rfl | ⟨post, last, rfl⟩
    · rw [← List.cons_append, ← List.append_assoc] at heq
      obtain ⟨rfl, hlast⟩ := List.append_inj' heq rfl
      obtain rfl := List.singleton_inj.mp hlast
      refine hnew rfl u (useID_iff.mpr ⟨pre, mid, rfl, hunread⟩) ⟨hspecial, hu, hd⟩ o' ?_ hreg
      rcases List.mem_append.mp ho' with ho' | ho'
      · exact List.mem_append_left _ ho'
      · exact List.mem_append_right _ (List.mem_cons_of_mem _ ho')
    · rw [List.concat_eq_append, ← List.cons_append, ← List.append_assoc, ← List.cons_append,
        ← List.append_assoc] at heq
      have hocc := (List.append_inj' heq rfl).1
      rw [List.append_assoc, List.cons_append] at hocc
      exact h pre mid post reg u d hocc hunread hspecial hu hd o' ho' hreg

variable (regSize occs o) in
/-- What one occurrence adds to the holes. -/
theorem holes_append : (build regSize (occs ++ [o])).holes = (build regSize occs).holes ∨
    ∃ u, o.kind = .define ∧ (build regSize occs).useID o.reg = some u ∧ Leaves o.reg u o.id ∧
      (build regSize (occs ++ [o])).holes =
        (build regSize occs).holes ++ [⟨u + 1, o.id - 1, regSize o.reg, o.reg⟩] := by
  rw [build_append, see]
  cases hkind : o.kind with
  | use => exact .inl rfl
  | part => exact .inl rfl
  | flag => exact .inl rfl
  | define =>
    dsimp only
    rw [leaveHole]
    cases huse : (build regSize occs).useID o.reg with
    | none => exact .inl rfl
    | some u =>
      dsimp only
      by_cases hleaves : specialRegNum ≤ o.reg ∧ 0 ≤ u ∧ u < o.id - 1
      · rw [if_pos hleaves]
        exact .inr ⟨u, rfl, rfl, hleaves, rfl⟩
      · rw [if_neg hleaves]
        exact .inl rfl

/-- A write that leaves a hole leaves it. -/
theorem holes_append_leaves (hkind : o.kind = .define)
    (huse : (build regSize occs).useID o.reg = some u) (hleaves : Leaves o.reg u o.id) :
    (build regSize (occs ++ [o])).holes =
      (build regSize occs).holes ++ [⟨u + 1, o.id - 1, regSize o.reg, o.reg⟩] := by
  rw [build_append, see, hkind]
  dsimp only
  have hcond : specialRegNum ≤ o.reg ∧ 0 ≤ u ∧ u < o.id - 1 := hleaves
  rw [leaveHole, huse]
  dsimp only
  rw [if_pos hcond]

theorem holes_mono (pre post : List Occurrence) {t : HoleRegTag}
    (h : t ∈ (build regSize pre).holes) : t ∈ (build regSize (pre ++ post)).holes := by
  induction post using List.reverseRecOn with
  | nil => rwa [List.append_nil]
  | append_singleton post o ih =>
    rw [← List.append_assoc]
    rcases holes_append regSize (pre ++ post) o with heq | ⟨u, h'⟩
    · rw [heq]
      exact ih
    · rw [h'.2.2.2]
      exact List.mem_append_left _ ih

/-- A hole ends before a write of its register. -/
theorem hole_define {t : HoleRegTag} (h : t ∈ (build regSize occs).holes) :
    ∃ d ∈ occs, d.kind = .define ∧ d.reg = t.reg ∧ t.endID = d.id - 1 ∧
      t.startID ≤ t.endID := by
  induction occs using List.reverseRecOn with
  | nil => exact absurd h List.not_mem_nil
  | append_singleton occs o ih =>
    rcases holes_append regSize occs o with heq | ⟨u, hkind, -, hleaves, heq⟩
    · rw [heq] at h
      obtain ⟨d, hd, hrest⟩ := ih h
      exact ⟨d, List.mem_append_left _ hd, hrest⟩
    · rw [heq] at h
      rcases List.mem_append.mp h with h | h
      · obtain ⟨d, hd, hrest⟩ := ih h
        exact ⟨d, List.mem_append_left _ hd, hrest⟩
      · rw [List.mem_singleton.mp h]
        have := hleaves.2.2
        exact ⟨o, by simp, hkind, rfl, rfl, by dsimp only; omega⟩

/-- The last read of a list is in its second part, or the second part has none. -/
theorem useID_split {xs ys : List Occurrence}
    (h : (build regSize (xs ++ ys)).useID reg = some u) :
    (∃ o ∈ ys, o.reg = reg ∧ o.id = u) ∨ (build regSize xs).useID reg = some u := by
  induction ys using List.reverseRecOn with
  | nil =>
    rw [List.append_nil] at h
    exact .inr h
  | append_singleton ys o ih =>
    rw [← List.append_assoc] at h
    by_cases hmine : o.kind = .use ∧ o.reg = reg
    · obtain ⟨hkind, rfl⟩ := hmine
      rw [useID_append_use hkind, Function.update_self, Option.some_inj] at h
      exact .inl ⟨o, by simp, rfl, h⟩
    · have hsame : (build regSize (xs ++ ys ++ [o])).useID reg =
          (build regSize (xs ++ ys)).useID reg := by
        by_cases hkind : o.kind = .use
        · rw [useID_append_use hkind, Function.update_of_ne]
          exact fun heq => hmine ⟨hkind, heq.symm⟩
        · rw [useID_append hkind]
      rw [hsame] at h
      refine (ih h).imp_left ?_
      rintro ⟨o', ho', hrest⟩
      exact ⟨o', List.mem_append_left _ ho', hrest⟩

/-- A hole more is apart from the old ones, and clear, exactly when nothing of the register
is in the gap. -/
theorem gapAt_iff (hordered : Ordered (occs ++ [o])) (hkind : o.kind = .define)
    (huse : (build regSize occs).useID o.reg = some u) (hleaves : Leaves o.reg u o.id) :
    ((∀ t ∈ (build regSize occs).holes, Apart t ⟨u + 1, o.id - 1, regSize o.reg, o.reg⟩) ∧
      Clear occs ⟨u + 1, o.id - 1, regSize o.reg, o.reg⟩) ↔ GapAt occs o u := by
  have hbefore : ∀ o' ∈ occs, o'.id ≤ o.id := fun o' ho' =>
    (List.pairwise_append.mp hordered).2.2 o' ho' o (List.mem_singleton_self _) (.inr hkind)
  have hgap := hleaves.2.2
  constructor
  · rintro ⟨hapart, hclear⟩ o' ho' hreg
    rcases hclear o' ho' hreg with hlow | hhigh
    · exact .inl (by dsimp only at hlow; omega)
    · have hle := hbefore o' ho'
      refine .inr ⟨by dsimp only at hhigh; omega, fun hdefine => ?_⟩
      -- the register is written twice by the instruction: the first time has left this hole too
      obtain ⟨xs, ys, rfl⟩ := List.append_of_mem ho'
      have huse' : (build regSize xs).useID o'.reg = some u := by
        rw [hreg]
        have hsplit : xs ++ o' :: ys = xs ++ [o'] ++ ys := by simp
        rw [hsplit] at huse
        rcases useID_split huse with ⟨o2, ho2, -, hid⟩ | huse
        · have hafter : o'.id ≤ o2.id := by
            have hpair := (List.pairwise_append.mp (List.pairwise_append.mp hordered).1).2.1
            exact (List.pairwise_cons.mp hpair).1 o2 ho2 (.inl hdefine)
          dsimp only at hhigh
          omega
        · rwa [useID_append (by rw [hdefine]; decide)] at huse
      have hid : o'.id = o.id := by
        dsimp only at hhigh
        omega
      have hmade : (⟨u + 1, o'.id - 1, regSize o'.reg, o'.reg⟩ : HoleRegTag) ∈
          (build regSize (xs ++ o' :: ys)).holes := by
        have hsplit : xs ++ o' :: ys = xs ++ [o'] ++ ys := by simp
        rw [hsplit]
        refine holes_mono _ _ ?_
        rw [holes_append_leaves hdefine huse' (by rw [hreg, hid]; exact hleaves)]
        exact List.mem_append_right _ (List.mem_singleton_self _)
      have := hapart _ hmade hreg
      dsimp only at this
      omega
  · intro hgapAt
    refine ⟨?_, ?_⟩
    · intro t ht hreg
      obtain ⟨d, hd, hdefine, hdreg, hend, -⟩ := hole_define ht
      rcases hgapAt d hd (hdreg.trans hreg) with hlow | ⟨-, hnot⟩
      · exact .inl (by dsimp only; omega)
      · exact absurd hdefine hnot
    · intro o' ho' hreg
      dsimp only
      rcases hgapAt o' ho' hreg with hlow | ⟨hhigh, -⟩
      · omega
      · omega

variable (regSize) in
/-- The holes of the occurrences of one block. -/
theorem build_sound_iff (hordered : Ordered occs) :
    ((build regSize occs).holes.Pairwise Apart ∧ ∀ t ∈ (build regSize occs).holes,
      Clear occs t) ↔ Gapless occs := by
  induction occs using List.reverseRecOn with
  | nil =>
    refine iff_of_true ⟨List.Pairwise.nil, fun _ ht => absurd ht List.not_mem_nil⟩ ?_
    intro pre mid post reg u d heq
    exact absurd heq.symm (by simp)
  | append_singleton occs o ih =>
    have hbefore : Ordered occs := (List.pairwise_append.mp hordered).1
    -- what was left before ends before `o`
    have hclear : ∀ t ∈ (build regSize occs).holes, (Clear (occs ++ [o]) t ↔ Clear occs t) := by
      intro t ht
      obtain ⟨d, hd, hdefine, -, hend, -⟩ := hole_define ht
      have hle := (List.pairwise_append.mp hordered).2.2 d hd o (List.mem_singleton_self _)
        (.inl hdefine)
      constructor
      · exact fun h o' ho' => h o' (List.mem_append_left _ ho')
      · intro h o' ho'
        rcases List.mem_append.mp ho' with ho' | ho'
        · exact h o' ho'
        · rw [List.mem_singleton.mp ho']
          exact fun _ => .inr (by omega)
    rw [gapless_append regSize, ← ih hbefore]
    rcases holes_append regSize occs o with
      heq | ⟨u, hkind, huse, hleaves, heq⟩
    · -- `o` leaves no hole, or the one between the last use and `o`
      rw [heq]
      have hnew : o.kind = .define → ∀ u, (build regSize occs).useID o.reg = some u →
          Leaves o.reg u o.id → GapAt occs o u := by
        intro hkind u huse hleaves
        rw [holes_append_leaves hkind huse hleaves] at heq
        have := congrArg List.length heq
        simp at this
      rw [and_iff_left hnew]
      exact and_congr_right fun _ => forall₂_congr hclear
    · have hgap := gapAt_iff hordered hkind huse hleaves
      have hlast : Clear (occs ++ [o]) ⟨u + 1, o.id - 1, regSize o.reg, o.reg⟩ ↔
          Clear occs ⟨u + 1, o.id - 1, regSize o.reg, o.reg⟩ := by
        constructor
        · exact fun h o' ho' => h o' (List.mem_append_left _ ho')
        · intro h o' ho'
          rcases List.mem_append.mp ho' with ho' | ho'
          · exact h o' ho'
          · rw [List.mem_singleton.mp ho']
            exact fun _ => .inr (by dsimp only; omega)
      have hnew : (o.kind = .define → ∀ v, (build regSize occs).useID o.reg = some v →
          Leaves o.reg v o.id → GapAt occs o v) ↔ GapAt occs o u := by
        constructor
        · exact fun h => h hkind u huse hleaves
        · intro h _ v hv _
          rw [huse] at hv
          rwa [← Option.some_inj.mp hv]
      rw [heq, hnew, ← hgap, List.pairwise_append, List.forall_mem_append,
        List.forall_mem_singleton, hlast]
      constructor
      · rintro ⟨⟨hpair, -, hapart⟩, hold, hthis⟩
        exact ⟨⟨hpair, fun t ht => (hclear t ht).mp (hold t ht)⟩,
          fun t ht => hapart t ht _ (List.mem_singleton_self _), hthis⟩
      · rintro ⟨⟨hpair, hold⟩, hapart, hthis⟩
        refine ⟨⟨hpair, List.pairwise_singleton _ _, ?_⟩,
          fun t ht => (hclear t ht).mpr (hold t ht), hthis⟩
        intro t ht t' ht'
        rw [List.mem_singleton.mp ht']
        exact hapart t ht

end Block

/-! ### The blocks one after another -/

section Program

variable {regSize : ℕ → ℤ} {blocks : List (List SelInsn)} {block : List SelInsn}

/-- The IDs of an instruction. -/
theorem SelInsn.occurrences_id {insn : SelInsn} {insnID : ℤ} {o : Occurrence}
    (h : o ∈ insn.occurrences insnID) :
    insnID - 1 ≤ o.id ∧ o.id ≤ insnID ∧ (o.kind ≠ .use → o.id = insnID) := by
  rcases List.mem_append.mp h with h | h
  · obtain ⟨src, -, rfl⟩ := List.mem_map.mp h
    refine ⟨?_, ?_, fun hkind => absurd rfl hkind⟩ <;> dsimp only [Source.id] <;> split <;> omega
  · rcases List.mem_append.mp h with h | h
    · obtain ⟨dst, -, rfl⟩ := List.mem_map.mp h
      exact ⟨by dsimp only; omega, le_rfl, fun _ => rfl⟩
    · obtain ⟨reg, -, rfl⟩ := List.mem_map.mp h
      exact ⟨by dsimp only; omega, le_rfl, fun _ => rfl⟩

/-- The IDs of a block. -/
theorem occurrences_id {insnID : ℤ} {o : Occurrence} (h : o ∈ occurrences block insnID) :
    insnID - 1 ≤ o.id ∧ o.id ≤ insnID + 2 * block.length - 2 := by
  induction block generalizing insnID with
  | nil => exact absurd h List.not_mem_nil
  | cons insn rest ih =>
    rw [List.length_cons]
    rcases List.mem_append.mp h with h | h
    · obtain ⟨hlow, hhigh, -⟩ := SelInsn.occurrences_id h
      omega
    · obtain ⟨hlow, hhigh⟩ := ih h
      omega

theorem occurrences_ordered (block : List SelInsn) (insnID : ℤ) :
    Ordered (occurrences block insnID) := by
  induction block generalizing insnID with
  | nil => exact List.Pairwise.nil
  | cons insn rest ih =>
    refine List.pairwise_append.mpr ⟨?_, ih _, ?_⟩
    · -- the sources come first, everything else has the ID of the instruction
      have hrest : ∀ o ∈ (insn.dst.filter fun dst => dst.general && !inR0 dst.reg).map
          (fun dst => (⟨dst.reg, insnID, if dst.subphysical then .part else .define⟩ :
            Occurrence)) ++ insn.flag.toList.map fun reg => ⟨reg, insnID, .flag⟩,
          o.id = insnID := by
        intro o ho
        rcases List.mem_append.mp ho with ho | ho
        · obtain ⟨dst, -, rfl⟩ := List.mem_map.mp ho
          rfl
        · obtain ⟨reg, -, rfl⟩ := List.mem_map.mp ho
          rfl
      refine List.pairwise_append.mpr ⟨?_, ?_, ?_⟩
      · refine List.pairwise_of_forall_mem_list fun o ho o' ho' hkind => ?_
        obtain ⟨src, -, rfl⟩ := List.mem_map.mp ho
        obtain ⟨src', -, rfl⟩ := List.mem_map.mp ho'
        exact absurd hkind (by simp)
      · refine List.pairwise_of_forall_mem_list fun o ho o' ho' _ => ?_
        rw [hrest o ho, hrest o' ho']
      · intro o ho o' ho' _
        rw [hrest o' ho']
        exact (SelInsn.occurrences_id (List.mem_append_left _ ho)).2.1
    · intro o ho o' ho' _
      have hhigh := (SelInsn.occurrences_id ho).2.1
      have hlow := (occurrences_id ho').1
      omega

/-- A block ends before the next one begins. -/
theorem firstID_lt {b b' : ℕ} (h : blocks[b]? = some block) (hlt : b < b') :
    firstID blocks b + 2 * block.length ≤ firstID blocks b' := by
  have hsum : ((blocks.take (b + 1)).map List.length).sum =
      ((blocks.take b).map List.length).sum + block.length := by
    rw [List.take_add_one, h]
    simp
  have hmono : ((blocks.take (b + 1)).map List.length).sum ≤
      ((blocks.take b').map List.length).sum := by
    refine List.Sublist.sum_le_sum ?_ (fun _ _ => Nat.zero_le _)
    exact (List.take_sublist_take_left hlt).map _
  rw [firstID, firstID]
  omega

/-- The register occurs at the ID. -/
def OccursAt (blocks : List (List SelInsn)) (reg : ℕ) (id : ℤ) : Prop :=
  ∃ b block, blocks[b]? = some block ∧
    ∃ o ∈ occurrences block (firstID blocks b), o.reg = reg ∧ o.id = id

/-- The holes of a register are disjoint, and the register does not occur in them. -/
structure Sound (regSize : ℕ → ℤ) (blocks : List (List SelInsn)) : Prop where
  apart : ∀ (b b' : ℤ) (i j : ℕ) tag tag', (pool regSize blocks b)[i]? = some tag →
    (pool regSize blocks b')[j]? = some tag' → (b, i) ≠ (b', j) → Apart tag tag'
  clear : ∀ b, ∀ tag ∈ pool regSize blocks b, ∀ id, OccursAt blocks tag.reg id →
    id < tag.startID ∨ tag.endID < id

theorem pool_natCast (b : ℕ) (h : blocks[b]? = some block) :
    pool regSize blocks b = (build regSize (occurrences block (firstID blocks b))).holes := by
  rw [pool, if_pos (Int.natCast_nonneg b), Int.toNat_natCast, h]
  dsimp only
  rw [blockHoles, buildBlock_eq]
  rfl

theorem pool_some {b : ℤ} {tag : HoleRegTag} (h : tag ∈ pool regSize blocks b) :
    ∃ (n : ℕ) (block : List SelInsn), b = n ∧ blocks[n]? = some block := by
  rw [pool] at h
  split at h
  · rename_i hb
    rcases hget : blocks[b.toNat]? with _ | block
    · rw [hget] at h
      exact absurd h List.not_mem_nil
    · exact ⟨b.toNat, block, (Int.toNat_of_nonneg hb).symm, hget⟩
  · exact absurd h List.not_mem_nil

/-- A hole starts behind a read of its register. -/
theorem hole_use {occs : List Occurrence} {t : HoleRegTag} (h : t ∈ (build regSize occs).holes) :
    ∃ o ∈ occs, o.id + 1 = t.startID := by
  induction occs using List.reverseRecOn with
  | nil => exact absurd h List.not_mem_nil
  | append_singleton occs o ih =>
    rcases holes_append regSize occs o with heq | ⟨u, -, huse, -, heq⟩
    · rw [heq] at h
      obtain ⟨o', ho', hid⟩ := ih h
      exact ⟨o', List.mem_append_left _ ho', hid⟩
    · rw [heq] at h
      rcases List.mem_append.mp h with hold | hnew
      · obtain ⟨o', ho', hid⟩ := ih hold
        exact ⟨o', List.mem_append_left _ ho', hid⟩
      · obtain ⟨pre, mid, rfl, -⟩ := useID_iff.mp huse
        rw [List.mem_singleton.mp hnew]
        exact ⟨⟨o.reg, u, .use⟩, by simp, rfl⟩

/-- A hole lies in its block. -/
theorem hole_window {b : ℕ} (h : blocks[b]? = some block) {tag : HoleRegTag}
    (htag : tag ∈ pool regSize blocks b) :
    firstID blocks b ≤ tag.startID ∧ tag.endID ≤ firstID blocks b + 2 * block.length - 3 := by
  rw [pool_natCast b h] at htag
  obtain ⟨o, ho, hstart⟩ := hole_use htag
  obtain ⟨d, hd, -, -, hend, -⟩ := hole_define htag
  have hlow := (occurrences_id ho).1
  have hhigh := (occurrences_id hd).2
  omega

theorem Apart.symm {t t' : HoleRegTag} (h : Apart t t') : Apart t' t :=
  fun hreg => (h hreg.symm).symm

/-- Occurrences of other blocks are not in a hole. -/
theorem outside_block {b b' : ℕ} {block' : List SelInsn} (h : blocks[b]? = some block)
    (h' : blocks[b']? = some block') (hne : b ≠ b') {tag : HoleRegTag}
    (htag : tag ∈ pool regSize blocks b) {o : Occurrence}
    (ho : o ∈ occurrences block' (firstID blocks b')) :
    o.id < tag.startID ∨ tag.endID < o.id := by
  obtain ⟨hstart, hend⟩ := hole_window h htag
  obtain ⟨hlow, hhigh⟩ := occurrences_id ho
  rcases Nat.lt_or_gt_of_ne hne with hlt | hgt
  · have := firstID_lt h hlt
    omega
  · have := firstID_lt h' hgt
    omega

/-- Holes of different blocks are apart. -/
theorem apart_blocks {b b' : ℕ} {block' : List SelInsn} (h : blocks[b]? = some block)
    (h' : blocks[b']? = some block') (hne : b ≠ b') {tag tag' : HoleRegTag}
    (htag : tag ∈ pool regSize blocks b) (htag' : tag' ∈ pool regSize blocks b') :
    Apart tag tag' := by
  intro _
  obtain ⟨hstart, hend⟩ := hole_window h htag
  obtain ⟨hstart', hend'⟩ := hole_window h' htag'
  rcases Nat.lt_or_gt_of_ne hne with hlt | hgt
  · have := firstID_lt h hlt
    omega
  · have := firstID_lt h' hgt
    omega

variable (regSize) in
/-- **The holes of a program.** -/
theorem sound_iff : Sound regSize blocks ↔ ∀ (b : ℕ) block, blocks[b]? = some block →
    Gapless (occurrences block (firstID blocks b)) := by
  constructor
  · intro h b block hb
    rw [← build_sound_iff regSize (occurrences_ordered block _), ← pool_natCast b hb]
    refine ⟨?_, ?_⟩
    · refine List.pairwise_iff_getElem.mpr fun i j hi hj hij => ?_
      exact h.apart b b i j _ _ (List.getElem?_eq_getElem hi) (List.getElem?_eq_getElem hj)
        (by simp only [ne_eq, Prod.mk.injEq, true_and]; omega)
    · intro tag htag o ho hreg
      exact h.clear b tag htag o.id ⟨b, block, hb, o, ho, hreg, rfl⟩
  · intro h
    have hblock : ∀ (b : ℕ) block, blocks[b]? = some block →
        (pool regSize blocks b).Pairwise Apart ∧ ∀ tag ∈ pool regSize blocks b,
          Clear (occurrences block (firstID blocks b)) tag := by
      intro b block hb
      rw [pool_natCast b hb]
      exact (build_sound_iff regSize (occurrences_ordered block _)).mpr (h b block hb)
    refine ⟨?_, ?_⟩
    · intro b b' i j tag tag' htag htag' hne
      obtain ⟨n, block, rfl, hn⟩ := pool_some (List.mem_of_getElem? htag)
      obtain ⟨n', block', rfl, hn'⟩ := pool_some (List.mem_of_getElem? htag')
      by_cases hsame : n = n'
      · subst hsame
        have hpair := (hblock n block hn).1
        obtain ⟨hi, rfl⟩ := List.getElem?_eq_some_iff.mp htag
        obtain ⟨hj, rfl⟩ := List.getElem?_eq_some_iff.mp htag'
        have hij : i ≠ j := fun heq => hne (by rw [heq])
        rcases Nat.lt_or_gt_of_ne hij with hlt | hgt
        · exact List.pairwise_iff_getElem.mp hpair i j hi hj hlt
        · exact (List.pairwise_iff_getElem.mp hpair j i hj hi hgt).symm
      · exact apart_blocks hn hn' hsame (List.mem_of_getElem? htag) (List.mem_of_getElem? htag')
    · rintro b tag htag _ ⟨b', block', hb', o, ho, hreg, rfl⟩
      obtain ⟨n, block, rfl, hn⟩ := pool_some htag
      by_cases hsame : n = b'
      · subst hsame
        obtain rfl : block = block' := Option.some_inj.mp (hn.symm.trans hb')
        exact (hblock n block hn).2 tag htag o ho hreg
      · exact outside_block hn hb' hsame htag ho

end Program

/-! ### Registers in holes -/

section Placed

variable {P : Input} {s s' : State}

/-- The states of the allocator: only the search for a hole changes the pool and puts a
register into a hole.  Whatever else is done, expiring and spilling included, leaves the two
alone. -/
inductive Reach (P : Input) : State → Prop
  | init : Reach P (init P)
  | other {s s' : State} (h : Reach P s) (pool : s'.HoleRegPool = s.HoleRegPool)
      (placed : s'.placed = s.placed) : Reach P s'
  | reuse {s : State} {reg : ℕ} (h : Reach P s) (used : (P.intervals reg).maxID ≠ -INT_MAX) :
      Reach P (reuseHole P s reg)

/-- The intervals of the two have nothing in common. -/
def Disjoint (P : Input) (e e' : Placement) : Prop :=
  (P.intervals e.reg).maxID < (P.intervals e'.reg).minID ∨
    (P.intervals e'.reg).maxID < (P.intervals e.reg).minID

/-- The registers put into holes of one register are disjoint, each in its hole. -/
structure PlacedSound (P : Input) (s : State) : Prop where
  inside : ∀ e ∈ s.placed, ∃ tag, hole? P e = some tag ∧ Inside P e tag
  apart : s.placed.Pairwise fun e e' => ∀ tag tag', hole? P e = some tag → hole? P e' = some tag' →
    tag.reg = tag'.reg → Disjoint P e e'

/-- Registers put into one hole are disjoint. -/
structure Inv (P : Input) (s : State) : Prop where
  holes : Holes P s
  apart : s.placed.Pairwise fun e e' => (e.blockID, e.pos) = (e'.blockID, e'.pos) →
    Disjoint P e e'

/-- One search for a hole. -/
theorem Inv.reuseHole (h : Inv P s) (hnear : P.Near) {u : ℕ}
    (hlive : 0 ≤ (P.intervals u).blockID → (P.intervals u).minID ≤ (P.intervals u).maxID) :
    Inv P (reuseHole P s u) := by
  refine ⟨h.holes.reuseHole hnear hlive, ?_⟩
  rcases reuseHole_cases P s u with
    heq | ⟨i, tag', -, htag, -, hfit, -, -, -, -, ⟨-, hplaced⟩ | ⟨o, -, -, hplaced⟩⟩
  · rw [heq]
    exact h.apart
  · rw [hplaced]
    exact h.apart
  · -- the hole's free part starts behind all that was put there before
    obtain ⟨hlow, -⟩ := h.holes.fits hnear htag hfit
    obtain ⟨-, -, -, -, -, -, hbehind⟩ := h.holes.pool _ _ _ htag
    rw [hplaced]
    refine List.pairwise_append.mpr ⟨h.apart, List.pairwise_singleton _ _, ?_⟩
    intro e he e' he' hslot
    rw [List.mem_singleton.mp he'] at hslot ⊢
    exact .inl ((hbehind e he hslot).trans_le hlow)

theorem Reach.inv (h : Reach P s) (hnear : P.Near)
    (hlive : ∀ r, 0 ≤ (P.intervals r).blockID → (P.intervals r).maxID ≠ -INT_MAX →
      (P.intervals r).minID ≤ (P.intervals r).maxID) : Inv P s := by
  induction h with
  | init => exact ⟨.init, List.Pairwise.nil⟩
  | other _ hpool hplaced ih =>
    obtain ⟨⟨pool, inside⟩, apart⟩ := ih
    rw [← hpool, ← hplaced] at pool
    rw [← hplaced] at inside apart
    exact ⟨⟨pool, inside⟩, apart⟩
  | reuse _ hused ih => exact ih.reuseHole hnear fun hb => hlive _ hb hused

/-- **Registers in disjoint holes.** -/
theorem Inv.placedSound (h : Inv P s) {blocks : List (List SelInsn)}
    (hholes : P.holes = HolePool.pool P.regSize blocks) (hsound : Sound P.regSize blocks) :
    PlacedSound P s := by
  refine ⟨h.holes.inside, ?_⟩
  refine h.apart.imp_of_mem fun {e e'} he he' hslot tag tag' htag htag' hreg => ?_
  by_cases hsame : (e.blockID, e.pos) = (e'.blockID, e'.pos)
  · -- one hole: the invariant; two holes: they are apart, and each register is inside its own
    exact hslot hsame
  · obtain ⟨_, htag1, hin⟩ := h.holes.inside e he
    obtain ⟨_, htag2, hin'⟩ := h.holes.inside e' he'
    obtain rfl := Option.some_inj.mp (htag1.symm.trans htag)
    obtain rfl := Option.some_inj.mp (htag2.symm.trans htag')
    rw [hole?, hholes] at htag htag'
    have := hsound.apart _ _ _ _ _ _ htag htag' hsame hreg
    unfold Inside at hin hin'
    unfold Disjoint
    omega

end Placed

/-! ### The allocator -/

section Allocator

variable {P : Input} {s s' : State}

theorem Reach.keeps (h : Reach P s) (hk : Keeps s s') : Reach P s' := h.other hk.pool hk.placed

theorem placeVector_reach {o : ℤ} {regs : List ℕ} {sub : ℤ} (h : Reach P s)
    (he : placeVector P o regs sub s = some s') : Reach P s' := by
  induction regs generalizing sub s with
  | nil =>
    obtain rfl := Option.some_inj.mp he
    exact h
  | cons u regs ih =>
    simp only [placeVector] at he
    split at he
    · cases he
    split at he
    · cases he
    obtain ⟨file, -, he⟩ := Option.bind_eq_some_iff.mp he
    refine ih ?_ he
    exact h.other rfl rfl

theorem createGenReg_reach {u : ℕ} (h : Reach P s) (hused : (P.intervals u).maxID ≠ -INT_MAX)
    (he : createGenReg P s u = some s') : Reach P s' := by
  have hreuse : Reach P (reuseHole P s u) := h.reuse hused
  simp only [createGenReg] at he
  split at he
  · obtain rfl := Option.some_inj.mp he
    exact hreuse
  · obtain ⟨⟨s1, o⟩, hs1, he⟩ := Option.bind_eq_some_iff.mp he
    simp only at he
    split at he
    · cases he
    · obtain rfl := Option.some_inj.mp he
      exact (hreuse.keeps (allocateReg_keeps hs1)).other rfl rfl

theorem allocateOne_reach {u : ℕ} (h : Reach P s) (he : allocateOne P s u = some s') :
    Reach P s' := by
  unfold allocateOne at he
  split at he
  · obtain rfl := Option.some_inj.mp he
    exact h
  rename_i hused
  split at he
  · obtain rfl := Option.some_inj.mp he
    exact h
  split at he
  · obtain rfl := Option.some_inj.mp he
    exact h
  split at he
  · simp only [allocateVector] at he
    obtain ⟨⟨s1, o⟩, hs1, he⟩ := Option.bind_eq_some_iff.mp he
    simp only at he
    split at he
    · cases he
    · exact placeVector_reach (h.keeps (allocateReg_keeps hs1)) he
  · exact createGenReg_reach h hused he

/-- Every allocation that completes is one of the runs. -/
theorem allocateGRFs_reach (he : allocateGRFs P = some s) : Reach P s := by
  have hrun : ∀ (rest : List ℕ) (t : State), Reach P t →
      rest.foldlM (allocateOne P) t = some s → Reach P s := by
    intro rest
    induction rest with
    | nil =>
      intro t ht he
      obtain rfl := Option.some_inj.mp he
      exact ht
    | cons u rest ih =>
      intro t ht he
      rw [List.foldlM_cons] at he
      obtain ⟨t1, ht1, he⟩ := Option.bind_eq_some_iff.mp he
      exact ih t1 (allocateOne_reach ht ht1) he
  exact hrun P.starting (init P) .init he

end Allocator

/-- **Holes are sound exactly when no gap is filled.** -/
theorem hole_pool_sound_iff (P : Input) (blocks : List (List SelInsn))
    (hholes : P.holes = pool P.regSize blocks) (hnear : P.Near)
    (hlive : ∀ r, 0 ≤ (P.intervals r).blockID → (P.intervals r).maxID ≠ -INT_MAX →
      (P.intervals r).minID ≤ (P.intervals r).maxID) :
    (Sound P.regSize blocks ∧ ∀ s, Reach P s → PlacedSound P s) ↔
      ∀ (b : ℕ) block, blocks[b]? = some block →
        Gapless (occurrences block (firstID blocks b)) := by
  rw [← sound_iff P.regSize]
  refine ⟨fun h => h.1, fun h => ⟨h, fun s hs => ?_⟩⟩
  exact (hs.inv hnear hlive).placedSound hholes h

/-! ### Two programs -/

/-- An instruction that reads `src` and writes `dst`. -/
def plain (src dst : List ℕ) : SelInsn :=
  ⟨src.map fun reg => ⟨reg, true, false⟩, dst.map fun reg => ⟨reg, true, false⟩, none⟩

/-- The second register fits between the read and the write of the first one. -/
def between : List SelInsn :=
  [plain [] [41], plain [41] [], plain [] [42], plain [42] [], plain [] [41], plain [41] []]

/-- The first register is written twice after it was read. -/
def twice : List SelInsn :=
  [plain [41] [], plain [] [42], plain [42] [43], plain [] [41], plain [43] [], plain [] [41]]

/-- The input for one block. -/
def oneBlock (block : List SelInsn) (starting : List ℕ) (intervals : ℕ → GenRegInterval) :
    Input where
  regNum := 44
  regSize _ := 32
  intervals := intervals
  starting := starting
  ending := []
  vectorMap _ := none
  flagBooleans _ := false
  holes := pool (fun _ => 32) [block]
  OCL_REUSE_HOLE_REG := true
  simdWidth := 8
  reservedSpillRegs := 0
  regSpillTick := 1
  payload _ := none
  file := fileWithout 0

def betweenInput : Input := oneBlock between [41, 42] fun reg =>
  if reg = 41 then ⟨0, 10, 0, 0, false, true⟩
  else if reg = 42 then ⟨4, 6, 0, 0, false, false⟩
  else ⟨INT_MAX, -INT_MAX, -1, 0, false, false⟩

def twiceInput : Input := oneBlock twice [41, 42, 43] fun reg =>
  if reg = 41 then ⟨0, 10, -1, 0, false, true⟩
  else if reg = 42 then ⟨2, 4, 0, 0, false, false⟩
  else if reg = 43 then ⟨4, 8, 0, 0, false, false⟩
  else ⟨INT_MAX, -INT_MAX, -1, 0, false, false⟩

theorem oneBlock_near {block : List SelInsn} {starting : List ℕ} {intervals : ℕ → GenRegInterval}
    (h : ∀ tag ∈ pool (fun _ => 32) [block] 0, ∀ reg, (intervals reg).blockID = 0 →
      (intervals reg).minID - tag.startID + 1 < 2 ^ 23 ∧
        tag.endID - (intervals reg).maxID + 1 < 2 ^ 23) :
    (oneBlock block starting intervals).Near := by
  intro reg tag htag
  have hzero : (intervals reg).blockID = 0 := by
    obtain ⟨n, block', hn, hget⟩ := pool_some htag
    have hlt := (List.getElem?_eq_some_iff.mp hget).1
    rw [List.length_singleton] at hlt
    obtain rfl : n = 0 := by omega
    exact hn
  refine h tag ?_ reg hzero
  rw [← hzero]
  exact htag

/-- The second register is put into the hole of the first one. -/
theorem hole_pool_sound_between :
    ∃ s, allocateGRFs betweenInput = some s ∧ s.placed = [⟨42, 0, 0⟩] ∧
      Sound betweenInput.regSize [between] ∧ PlacedSound betweenInput s := by
  have hrun : (allocateGRFs betweenInput).map (fun s => s.placed) = some [⟨42, 0, 0⟩] := by
    decide +kernel
  obtain ⟨s, hs, hplaced⟩ := Option.map_eq_some_iff.mp hrun
  have hpool : pool (fun _ => 32) [between] 0 = [⟨3, 7, 32, 41⟩] := by decide +kernel
  have hnear : betweenInput.Near := by
    refine oneBlock_near fun tag htag reg => ?_
    rw [hpool, List.mem_singleton] at htag
    subst htag
    dsimp only
    split
    · decide
    · split <;> decide
  have hlive : ∀ r, 0 ≤ (betweenInput.intervals r).blockID →
      (betweenInput.intervals r).maxID ≠ -INT_MAX →
        (betweenInput.intervals r).minID ≤ (betweenInput.intervals r).maxID := by
    intro r
    dsimp only [betweenInput, oneBlock]
    split
    · decide
    · split <;> decide
  have hgapless : ∀ (b : ℕ) block, [between][b]? = some block →
      Gapless (occurrences block (firstID [between] b)) := by
    intro b block hb
    rw [← build_sound_iff (fun _ => 32) (occurrences_ordered block _), ← pool_natCast b hb]
    obtain ⟨hlt, rfl⟩ := List.getElem?_eq_some_iff.mp hb
    obtain rfl : b = 0 := by simpa using hlt
    refine ⟨?_, ?_⟩
    · rw [Int.natCast_zero, hpool]
      exact List.pairwise_singleton _ _
    · rw [Int.natCast_zero, hpool, List.forall_mem_singleton]
      show ∀ o ∈ occurrences between 0, o.reg = 41 → o.id < 3 ∨ 7 < o.id
      decide
  obtain ⟨hsound, hall⟩ :=
    (hole_pool_sound_iff betweenInput [between] rfl hnear hlive).mpr hgapless
  exact ⟨s, hs, hplaced, hsound, hall s (allocateGRFs_reach hs)⟩

/-- Two registers that are live together are put into two holes of the register, and the
second one is live where the register is written. -/
theorem written_twice :
    ¬ Sound twiceInput.regSize [twice] ∧ ∃ s, allocateGRFs twiceInput = some s ∧
      s.placed = [⟨42, 0, 0⟩, ⟨43, 0, 1⟩] ∧ ¬ PlacedSound twiceInput s := by
  have hrun : (allocateGRFs twiceInput).map (fun s => s.placed) =
      some [⟨42, 0, 0⟩, ⟨43, 0, 1⟩] := by
    decide +kernel
  obtain ⟨s, hs, hplaced⟩ := Option.map_eq_some_iff.mp hrun
  have hpool : pool (fun _ => 32) [twice] 0 = [⟨1, 5, 32, 41⟩, ⟨1, 9, 32, 41⟩] := by
    decide +kernel
  refine ⟨fun h => ?_, s, hs, hplaced, fun h => ?_⟩
  · have hget : ∀ (i : ℕ) tag, [(⟨1, 5, 32, 41⟩ : HoleRegTag), ⟨1, 9, 32, 41⟩][i]? = some tag →
        (pool (fun _ => 32) [twice] 0)[i]? = some tag := fun i tag htag => by rwa [hpool]
    have := h.apart 0 0 0 1 _ _ (hget 0 _ rfl) (hget 1 _ rfl) (by decide) rfl
    revert this
    decide
  · have hpair := h.apart
    rw [hplaced] at hpair
    have hhole : ∀ (i : ℕ) tag reg,
        [(⟨1, 5, 32, 41⟩ : HoleRegTag), ⟨1, 9, 32, 41⟩][i]? = some tag →
          hole? twiceInput ⟨reg, 0, i⟩ = some tag := fun i tag reg htag => by
      show (pool (fun _ => 32) [twice] 0)[i]? = some tag
      rwa [hpool]
    have := (List.pairwise_cons.mp hpair).1 _ (List.mem_singleton_self _) _ _
      (hhole 0 _ _ rfl) (hhole 1 _ _ rfl) rfl
    revert this
    unfold HolePool.Disjoint
    decide

end HolePool

end Backend
