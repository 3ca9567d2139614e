/-
`GenWriter::removeLOADIs` (`llvm_gen_backend.cpp`): within a block, a LOADI of an immediate that is
already in a register is removed, and its destination renamed in what follows.

The immediates are keys of an ordered map: immediates of one type are compared by their value, or
by their bits.  A register that is written once keeps the immediate, so that the renaming is sound
from the removed LOADI on, and what is read before it is not renamed.

* `loaded_eq_of_less` — immediates that are not told apart load the same;
* `Agrees` — the states of the two blocks at the same instruction;
* **`removeLOADIs_same`** — the block does the same as before.
-/
import Beignet.Llvm.BlockInsns

namespace Llvm

namespace RemoveLoadis

open Ir (Immediate ImmType Result assert)
open BlockInsns StraightLine Ir.ImmType

variable {Op Val World : Type}

/-! ### The order of the immediates -/

/-- The place in the enumeration. -/
def typeCode : ImmType → ℕ
  | TYPE_BOOL => 0
  | TYPE_S8 => 1
  | TYPE_U8 => 2
  | TYPE_S16 => 3
  | TYPE_U16 => 4
  | TYPE_S32 => 5
  | TYPE_U32 => 6
  | TYPE_S64 => 7
  | TYPE_U64 => 8
  | TYPE_HALF => 9
  | TYPE_FLOAT => 10
  | TYPE_DOUBLE => 11
  | TYPE_LARGE_INT => 12

/-- The eight bytes, whatever the type. -/
def asIntegerValue (imm : Immediate) : Result ℤ := do
  assert (imm.elemNum = 1)
  imm.fetch TYPE_S64

/-- `operator<` -/
def less (imm0 imm1 : Immediate) : Result Bool :=
  if imm0.type ≠ imm1.type then return typeCode imm0.type < typeCode imm1.type
  else if imm0.type = TYPE_FLOAT ∨ imm0.type = TYPE_DOUBLE ∨ imm0.type = TYPE_HALF then do
    return (← asIntegerValue imm0) < (← asIntegerValue imm1)
  else do
    return (← imm0.getIntegerValue) < (← imm1.getIntegerValue)

/-! ### The code -/

/-- `std::map::find`: the entry that the order does not tell from the key. -/
def find : List (Immediate × Register) → Immediate → Result (Option Register)
  | [], _ => return none
  | (key, reg) :: loadedImm, imm => do
    if (← less key imm) || (← less imm key) then find loadedImm imm else return some reg

/-- `std::map::insert`: an entry that is there stays. -/
def insert (immTranslate : Register → Option Register) (dst reg : Register) :
    Register → Option Register :=
  Function.update immTranslate dst (some ((immTranslate dst).getD reg))

structure Traversal (Op : Type) where
  /-- what is left of the instructions so far -/
  insns : List (Insn Op)
  insnID : ℕ
  loadedImm : List (Immediate × Register)
  immTranslate : Register → Option Register

def translate (immTranslate : Register → Option Register) (reg : Register) : Register :=
  (immTranslate reg).getD reg

def visit (liveOut : Finset Register) (lastUse : LastUse) (st : Traversal Op) (insn : Insn Op) :
    Result (Traversal Op) := do
  let next := { st with insns := st.insns ++ [insn], insnID := st.insnID + 2 }
  match insn with
  | .loadi imm dst =>
    match ← find st.loadedImm imm with
    | none =>
      if (lastUse dst).lastWrite = st.insnID + 1 then
        return { next with loadedImm := (imm, dst) :: st.loadedImm }
      else return next
    | some reg =>
      if dst ∈ liveOut then return next
      else
        return { st with
          insnID := st.insnID + 2
          immTranslate := insert st.immTranslate dst reg }
  | insn =>
    let insn := (insn.mapSrc (translate st.immTranslate)).mapDst (translate st.immTranslate)
    return { next with insns := st.insns ++ [insn] }

def removeLOADIs (liveOut : Finset Register) (bb : List (Insn Op)) : Result (List (Insn Op)) := do
  let info := buildRegInfo bb
  let st ← info.insns.foldlM (visit liveOut info.lastUse) ⟨[], 2, [], fun _ => none⟩
  return st.insns

/-! ### Equal keys -/

/-- A scalar, with the eight bytes of its word or of its block. -/
structure Scalar (imm : Immediate) : Prop where
  elemNum : imm.elemNum = 1
  length : 8 ≤ imm.data.length
  type : imm.type ≠ TYPE_LARGE_INT

/-- The immediates of a block are scalars. -/
def Scalars (bb : List (Insn Op)) : Prop := ∀ imm dst, Insn.loadi imm dst ∈ bb → Scalar imm

theorem typeCode_injective : Function.Injective typeCode := by
  intro t u h
  cases t <;> cases u <;> first | rfl | exact absurd h (by decide)

section Less

variable {imm imm' : Immediate} {t : ImmType}

theorem Scalar.fetch (h : Scalar imm) (t : ImmType) : imm.fetch t = pure (Saturate.value t.isSigned
    (BitVec.ofNat t.width (Buffer.number (imm.data.take t.getTypeSize)))) := by
  have hle := Immediate.getTypeSize_le t
  have hlen := h.length
  rw [Immediate.fetch, Immediate.word_eq_pure.mpr ⟨by omega, rfl⟩]
  rfl

theorem number_of_value (s : Bool) {k : ℕ} {bs bs' : List (BitVec 8)} (hk : bs.length = k)
    (hk' : bs'.length = k)
    (h : Saturate.value s (BitVec.ofNat (8 * k) (Buffer.number bs)) =
      Saturate.value s (BitVec.ofNat (8 * k) (Buffer.number bs'))) : bs = bs' := by
  have hbits := congrArg (BitVec.ofInt (8 * k)) h
  rw [Saturate.ofInt_value, Saturate.ofInt_value] at hbits
  have hlt := Buffer.number_lt bs
  have hlt' := Buffer.number_lt bs'
  have hpow : (256 : ℕ) ^ k = 2 ^ (8 * k) := by
    rw [pow_mul]
    norm_num
  rw [hk, hpow] at hlt
  rw [hk', hpow] at hlt'
  have hnat := congrArg BitVec.toNat hbits
  rw [BitVec.toNat_ofNat, BitVec.toNat_ofNat, Nat.mod_eq_of_lt hlt, Nat.mod_eq_of_lt hlt'] at hnat
  rw [← Buffer.bytes_number bs, ← Buffer.bytes_number bs', hk, hk', hnat]

/-- What the order looks at, within one type. -/
def key (imm : Immediate) : ℤ :=
  if imm.type = TYPE_FLOAT ∨ imm.type = TYPE_DOUBLE ∨ imm.type = TYPE_HALF then
    Saturate.value true (BitVec.ofNat 64 (Buffer.number (imm.data.take 8)))
  else
    (BitVec.ofInt 64 (Saturate.value imm.type.isSigned
      (BitVec.ofNat imm.type.width (loaded imm)))).toInt

theorem less_eq (h : Scalar imm) (h' : Scalar imm') : less imm imm' =
    if imm.type ≠ imm'.type then pure (decide (typeCode imm.type < typeCode imm'.type))
    else pure (decide (key imm < key imm')) := by
  rw [less]
  by_cases ht : imm.type = imm'.type
  · rw [if_neg (not_not.mpr ht), if_neg (not_not.mpr ht)]
    have hkey : ∀ {a : Immediate}, Scalar a → a.type = imm'.type →
        (if a.type = TYPE_FLOAT ∨ a.type = TYPE_DOUBLE ∨ a.type = TYPE_HALF then asIntegerValue a
          else a.getIntegerValue) = pure (key a) := fun {a} ha hta => by
      rw [key]
      split
      · rw [asIntegerValue, ha.elemNum, ha.fetch]
        rfl
      · next hfloat =>
        have hint : a.type = TYPE_BOOL ∨ a.type.isInteger = true := by
          have hlarge := ha.type
          revert hfloat hlarge
          cases a.type <;> decide
        rw [Immediate.getIntegerValue, Ir.assert, if_pos hint, ha.fetch]
        rfl
    have hleft := hkey h ht
    have hright := hkey h' rfl
    rw [← ht] at hright
    split
    · next hfloat =>
      rw [if_pos hfloat] at hleft hright
      rw [hleft, hright]
      rfl
    · next hfloat =>
      rw [if_neg hfloat] at hleft hright
      rw [hleft, hright]
      rfl
  · rw [if_pos ht, if_pos ht]

/-- The value of a word in 64 bits. -/
theorem eq_of_bmod {w : ℕ} {s : Bool} {v v' : BitVec w} (hw : w ≤ 64)
    (h : (Saturate.value s v).bmod (2 ^ 64) = (Saturate.value s v').bmod (2 ^ 64)) : v = v' := by
  have hmod := congrArg (· % ((2 ^ 64 : ℕ) : ℤ)) h
  simp only [Int.bmod_emod] at hmod
  have hdvd : ((2 ^ w : ℕ) : ℤ) ∣ ((2 ^ 64 : ℕ) : ℤ) :=
    Int.natCast_dvd_natCast.mpr (Nat.pow_dvd_pow 2 hw)
  have hsmall :
      Saturate.value s v % ((2 ^ w : ℕ) : ℤ) = Saturate.value s v' % ((2 ^ w : ℕ) : ℤ) := by
    rw [← Int.emod_emod_of_dvd _ hdvd, hmod, Int.emod_emod_of_dvd _ hdvd]
  rw [← Saturate.ofInt_value s v, ← Saturate.ofInt_value s v', ← BitVec.toNat_inj,
    BitVec.toNat_ofInt, BitVec.toNat_ofInt, hsmall]

/-- Immediates of the same type and key load the same. -/
theorem loaded_eq_of_key (h : Scalar imm) (h' : Scalar imm') (ht : imm.type = imm'.type)
    (hkey : key imm = key imm') : loaded imm = loaded imm' := by
  have hle := Immediate.getTypeSize_le imm'.type
  have hlen := h.length
  have hlen' := h'.length
  rw [key, key, ht] at hkey
  split at hkey
  · have hbytes := number_of_value true (k := 8) (by rw [List.length_take]; omega)
      (by rw [List.length_take]; omega) hkey
    have htake : imm.data.take imm'.type.getTypeSize = imm'.data.take imm'.type.getTypeSize := by
      have hmin : imm'.type.getTypeSize = min imm'.type.getTypeSize 8 := by omega
      rw [hmin, ← List.take_take, ← List.take_take, hbytes]
    rw [loaded, loaded, ht, htake]
  · have hwide : imm'.type.width ≤ 64 := by
      rw [ImmType.width]
      omega
    rw [BitVec.toInt_ofInt, BitVec.toInt_ofInt, loaded, loaded, ht] at hkey
    have hbytes := number_of_value imm'.type.isSigned (by rw [List.length_take]; omega)
      (by rw [List.length_take]; omega) (congrArg (Saturate.value _) (eq_of_bmod hwide hkey))
    rw [loaded, loaded, ht, hbytes]

theorem exists_less (h : Scalar imm) (h' : Scalar imm') : ∃ b, less imm imm' = pure b := by
  rw [less_eq h h']
  split
  · exact ⟨_, rfl⟩
  · exact ⟨_, rfl⟩

/-- Immediates that the order does not tell apart. -/
theorem loaded_eq_of_less (h : Scalar imm) (h' : Scalar imm') (hlt : less imm imm' = pure false)
    (hgt : less imm' imm = pure false) : imm.type = imm'.type ∧ loaded imm = loaded imm' := by
  rw [less_eq h h'] at hlt
  rw [less_eq h' h] at hgt
  by_cases ht : imm.type = imm'.type
  · rw [if_neg (not_not.mpr ht)] at hlt
    rw [if_neg (not_not.mpr ht.symm)] at hgt
    have hle := not_lt.mp (of_decide_eq_false (Except.ok.inj hlt))
    have hge := not_lt.mp (of_decide_eq_false (Except.ok.inj hgt))
    exact ⟨ht, loaded_eq_of_key h h' ht (le_antisymm hge hle)⟩
  · rw [if_pos ht] at hlt
    rw [if_pos (Ne.symm ht)] at hgt
    have hle := not_lt.mp (of_decide_eq_false (Except.ok.inj hlt))
    have hge := not_lt.mp (of_decide_eq_false (Except.ok.inj hgt))
    exact absurd (typeCode_injective (le_antisymm hge hle)) ht

end Less

/-! ### The invariant -/

/-- What has been translated and what is kept of the instructions `pre`. -/
structure Kept (liveOut : Finset Register) (pre : List (Insn Op)) (st : Traversal Op) : Prop where
  moved : ∀ r t, st.immTranslate r = some t →
    st.immTranslate t = none ∧ r ∈ written pre ∧ t ∈ written pre ∧ r ∉ liveOut
  held : ∀ e ∈ st.loadedImm, Scalar e.1 ∧ st.immTranslate e.2 = none ∧ e.2 ∈ written pre

/-- After the same instructions, the registers of the two blocks agree unless they are translated;
a translated register has the value of the other. -/
structure Agrees (m : Machine Op Val World) (s : State Register Val World) (pre : List (Insn Op))
    (st : Traversal Op) : Prop where
  world : (execBlock m s st.insns).world = (execBlock m s pre).world
  same : ∀ r, st.immTranslate r = none →
    (execBlock m s st.insns).regs r = (execBlock m s pre).regs r
  moved : ∀ r t, st.immTranslate r = some t →
    (execBlock m s pre).regs r = (execBlock m s pre).regs t
  held : ∀ e ∈ st.loadedImm, (execBlock m s pre).regs e.2 = m.load e.1.type (loaded e.1)

/-- What is found loads the same. -/
theorem find_spec {loadedImm : List (Immediate × Register)} {imm : Immediate} (h : Scalar imm)
    (hheld : ∀ e ∈ loadedImm, Scalar e.1) : ∃ found, find loadedImm imm = pure found ∧
      ∀ reg, found = some reg → ∃ e ∈ loadedImm, e.2 = reg ∧ e.1.type = imm.type ∧
        loaded e.1 = loaded imm := by
  induction loadedImm with
  | nil => exact ⟨none, rfl, fun reg h => by cases h⟩
  | cons e loadedImm ih =>
    obtain ⟨found, hfound, hspec⟩ := ih fun e' he' => hheld e' (List.mem_cons_of_mem e he')
    have he := hheld e List.mem_cons_self
    obtain ⟨b, hb⟩ := exists_less he h
    obtain ⟨b', hb'⟩ := exists_less h he
    have hstep : find (e :: loadedImm) imm =
        if b || b' then find loadedImm imm else pure (some e.2) := by
      rw [find, hb, hb']
      rfl
    rw [hstep]
    split
    · refine ⟨found, hfound, fun reg hreg => ?_⟩
      obtain ⟨e', he', hspec'⟩ := hspec reg hreg
      exact ⟨e', List.mem_cons_of_mem e he', hspec'⟩
    · next hno =>
      rw [Bool.or_eq_true, not_or, Bool.not_eq_true, Bool.not_eq_true] at hno
      obtain ⟨rfl, rfl⟩ := hno
      refine ⟨some e.2, rfl, fun reg hreg => ⟨e, List.mem_cons_self, Option.some.inj hreg, ?_⟩⟩
      exact loaded_eq_of_less he h hb hb'

section Visit

variable {liveOut : Finset Register} {lastUse : LastUse} {pre : List (Insn Op)}
variable {st : Traversal Op} {m : Machine Op Val World} {s : State Register Val World}

theorem written_concat (insn : Insn Op) : written (pre ++ [insn]) = written pre ++ insn.dst := by
  rw [written, List.flatMap_append, List.flatMap_singleton]
  rfl

theorem Kept.translate_dst (h : Kept liveOut pre st) {x : Register} (hx : x ∉ written pre) :
    st.immTranslate x = none := by
  by_contra hne
  obtain ⟨t, ht⟩ := Option.ne_none_iff_exists'.mp hne
  exact hx (h.moved x t ht).2.1

/-- An instruction that stays, with its sources translated. -/
theorem Agrees.keep (h : Agrees m s pre st) (hk : Kept liveOut pre st) {insn : Insn Op}
    (hnew : ∀ x ∈ insn.dst, x ∉ written pre) {next : Traversal Op}
    (hinsns : next.insns = st.insns ++ [insn.mapSrc (translate st.immTranslate)])
    (hmap : next.immTranslate = st.immTranslate)
    (hheld : ∀ e ∈ next.loadedImm, e ∈ st.loadedImm ∨
      ∀ s : State Register Val World, (step s (insn.action m)).regs e.2 =
        m.load e.1.type (loaded e.1)) : Agrees m s (pre ++ [insn]) next := by
  have hsrc : ∀ r ∈ (insn.action m).src,
      (execBlock m s st.insns).regs (translate st.immTranslate r) = (execBlock m s pre).regs r :=
    fun r _ => by
      cases ht : st.immTranslate r with
      | none => rw [translate, ht, Option.getD_none, h.same r ht]
      | some t => rw [translate, ht, Option.getD_some, h.same t (hk.moved r t ht).1, h.moved r t ht]
  have hafter : execBlock m s next.insns =
      ⟨write insn.dst ((insn.action m).run (execBlock m s pre).regs (execBlock m s pre).world).1
        (execBlock m s st.insns).regs, (step (execBlock m s pre) (insn.action m)).world⟩ := by
    rw [hinsns, execBlock_append, execBlock_cons, execBlock_nil, action_mapSrc,
      step_mapSrc _ h.world hsrc, dst_action]
  have hbefore : execBlock m s (pre ++ [insn]) = step (execBlock m s pre) (insn.action m) := by
    rw [execBlock_append, execBlock_cons, execBlock_nil]
  have hold : ∀ x ∈ written pre, x ∉ (insn.action m).dst := fun x hx hmem =>
    hnew x (dst_action m insn ▸ hmem) hx
  refine ⟨?_, fun r hr => ?_, fun r t hrt => ?_, fun e he => ?_⟩
  · rw [hafter, hbefore]
  · rw [hmap] at hr
    rw [hafter, hbefore]
    by_cases hmem : r ∈ insn.dst
    · rw [step_of_mem (by rwa [dst_action]), dst_action]
      exact if_pos hmem
    · rw [step_of_notMem (by rwa [dst_action]), ← h.same r hr]
      exact if_neg hmem
  · rw [hmap] at hrt
    obtain ⟨-, hr, ht, -⟩ := hk.moved r t hrt
    rw [hbefore, step_of_notMem (hold r hr), step_of_notMem (hold t ht), h.moved r t hrt]
  · rw [hbefore]
    rcases hheld e he with hmem | hnew
    · rw [step_of_notMem (hold e.2 (hk.held e hmem).2.2), h.held e hmem]
    · exact hnew _

/-- One instruction. -/
theorem visit_spec (lastUse : LastUse) (h : Kept liveOut pre st) (insn : Insn Op)
    (hnew : ∀ x ∈ insn.dst, x ∉ written pre)
    (hscalar : ∀ imm dst, insn = .loadi imm dst → Scalar imm) :
    ∃ next, visit liveOut lastUse st insn = pure next ∧ Kept liveOut (pre ++ [insn]) next ∧
      ∀ {Val World : Type} (m : Machine Op Val World) (s : State Register Val World),
        Agrees m s pre st → Agrees m s (pre ++ [insn]) next := by
  have hmono : ∀ x ∈ written pre, x ∈ written (pre ++ [insn]) := fun x hx => by
    rw [written_concat]
    exact List.mem_append_left _ hx
  have hkept : ∀ next : Traversal Op, next.immTranslate = st.immTranslate →
      next.loadedImm = st.loadedImm → Kept liveOut (pre ++ [insn]) next :=
      fun next hmap hloaded => by
    refine ⟨fun r t hrt => ?_, fun e he => ?_⟩
    · rw [hmap] at hrt ⊢
      obtain ⟨h1, h2, h3, h4⟩ := h.moved r t hrt
      exact ⟨h1, hmono r h2, hmono t h3, h4⟩
    · rw [hloaded] at he
      obtain ⟨h1, h2, h3⟩ := h.held e he
      exact ⟨h1, hmap ▸ h2, hmono _ h3⟩
  cases insn with
  | mov dst src =>
    have hdst := h.translate_dst (hnew dst (List.mem_singleton_self dst))
    refine ⟨_, rfl, hkept _ rfl rfl, fun m s ha => ha.keep h hnew ?_ rfl fun e he => .inl he⟩
    simp only [Insn.mapSrc, Insn.mapDst, translate, hdst, Option.getD_none]
  | other op dst src =>
    refine ⟨_, rfl, hkept _ rfl rfl, fun m s ha => ha.keep h hnew ?_ rfl fun e he => .inl he⟩
    have hid : dst.map (translate st.immTranslate) = dst := by
      have hfix : ∀ x ∈ dst, translate st.immTranslate x = id x := fun x hx => by
        rw [translate, h.translate_dst (hnew x hx)]
        rfl
      rw [List.map_congr_left hfix, List.map_id]
    simp only [Insn.mapSrc, Insn.mapDst, hid]
  | loadi imm dst =>
    have himm := hscalar imm dst rfl
    have hdst := hnew dst (List.mem_singleton_self dst)
    have hdmem : dst ∈ written (pre ++ [Insn.loadi imm dst]) := by
      rw [written_concat]
      exact List.mem_append_right _ (List.mem_singleton_self dst)
    obtain ⟨found, hfound, hspec⟩ := find_spec himm fun e he => (h.held e he).1
    have hstays : ∀ next : Traversal Op, next.insns = st.insns ++ [Insn.loadi imm dst] →
        next.immTranslate = st.immTranslate →
        (∀ e ∈ next.loadedImm, e ∈ st.loadedImm ∨ e = (imm, dst)) →
        ∀ {Val World : Type} (m : Machine Op Val World) (s : State Register Val World),
          Agrees m s pre st → Agrees m s (pre ++ [Insn.loadi imm dst]) next :=
      fun next hinsns hmap hloaded {_ _} m s ha => by
        refine ha.keep h hnew hinsns hmap fun e he => (hloaded e he).imp_right ?_
        rintro rfl s
        rw [Insn.action, step_const]
        exact Function.update_self _ _ _
    cases found with
    | none =>
      simp only [visit, hfound, pure_bind]
      split
      · refine ⟨_, rfl, ⟨(hkept _ rfl rfl).moved, fun e he => ?_⟩,
          fun m s => hstays _ (by rfl) (by rfl) (fun e he => ?_) m s⟩
        · rcases List.mem_cons.mp he with rfl | he
          · exact ⟨himm, h.translate_dst hdst, hdmem⟩
          · obtain ⟨h1, h2, h3⟩ := h.held e he
            exact ⟨h1, h2, hmono _ h3⟩
        · exact (List.mem_cons.mp he).symm
      · refine ⟨_, rfl, hkept _ rfl rfl,
          fun m s => hstays _ (by rfl) (by rfl) (fun e he => ?_) m s⟩
        exact .inl he
    | some reg =>
      simp only [visit, hfound, pure_bind]
      split
      · refine ⟨_, rfl, hkept _ rfl rfl,
          fun m s => hstays _ (by rfl) (by rfl) (fun e he => ?_) m s⟩
        exact .inl he
      · next hlive =>
        obtain ⟨e, he, rfl, htype, hload⟩ := hspec reg rfl
        obtain ⟨-, hreg, hrmem⟩ := h.held e he
        have hne : ∀ x ∈ written pre, x ≠ dst := fun x hx heq => hdst (heq ▸ hx)
        have hinsert : insert st.immTranslate dst e.2 =
            Function.update st.immTranslate dst (some e.2) := by
          rw [insert, h.translate_dst hdst]
          rfl
        have hkeeps : ∀ x ∈ written pre,
            insert st.immTranslate dst e.2 x = st.immTranslate x := fun x hx => by
          rw [hinsert, Function.update_of_ne (hne x hx)]
        have hcases : ∀ r t, insert st.immTranslate dst e.2 r = some t →
            r = dst ∧ t = e.2 ∨ r ≠ dst ∧ st.immTranslate r = some t := fun r t hrt => by
          rw [hinsert] at hrt
          by_cases hr : r = dst
          · rw [hr, Function.update_self] at hrt
            exact .inl ⟨hr, (Option.some.inj hrt).symm⟩
          · rw [Function.update_of_ne hr] at hrt
            exact .inr ⟨hr, hrt⟩
        refine ⟨_, rfl, ⟨fun r t hrt => ?_, fun e' he' => ?_⟩, fun m s ha => ?_⟩
        · rcases hcases r t hrt with ⟨rfl, rfl⟩ | ⟨-, hrt⟩
          · exact ⟨(hkeeps _ hrmem).trans hreg, hdmem, hmono _ hrmem, hlive⟩
          · obtain ⟨h1, h2, h3, h4⟩ := h.moved r t hrt
            exact ⟨(hkeeps t h3).trans h1, hmono r h2, hmono t h3, h4⟩
        · obtain ⟨h1, h2, h3⟩ := h.held e' he'
          exact ⟨h1, (hkeeps _ h3).trans h2, hmono _ h3⟩
        · have hafter : execBlock m s (pre ++ [Insn.loadi imm dst]) =
              ⟨Function.update (execBlock m s pre).regs dst (m.load imm.type (loaded imm)),
                (execBlock m s pre).world⟩ := by
            rw [execBlock_append, execBlock_cons, execBlock_nil, Insn.action, step_const]
          have hframe : ∀ x ∈ written pre, (execBlock m s (pre ++ [Insn.loadi imm dst])).regs x =
              (execBlock m s pre).regs x := fun x hx => by
            rw [hafter]
            exact Function.update_of_ne (hne x hx) _ _
          refine ⟨?_, fun r hr => ?_, fun r t hrt => ?_, fun e' he' => ?_⟩
          · rw [hafter]
            exact ha.world
          · replace hr : insert st.immTranslate dst e.2 r = none := hr
            have hrd : r ≠ dst := fun heq => by
              rw [heq, hinsert, Function.update_self] at hr
              cases hr
            rw [hinsert, Function.update_of_ne hrd] at hr
            rw [hafter]
            exact (ha.same r hr).trans (Function.update_of_ne hrd _ _).symm
          · rcases hcases r t hrt with ⟨rfl, rfl⟩ | ⟨-, hrt⟩
            · rw [hframe _ hrmem, ha.held e he, htype, hload, hafter]
              exact Function.update_self _ _ _
            · obtain ⟨-, h2, h3, -⟩ := h.moved r t hrt
              rw [hframe r h2, hframe t h3, ha.moved r t hrt]
          · rw [hframe _ (h.held e' he').2.2, ha.held e' he']

end Visit

/-! ### The result -/

section Run

variable {liveOut : Finset Register} {bb pre rest : List (Insn Op)}
variable {st : Traversal Op}

/-- All the instructions. -/
theorem foldlM_spec (lastUse : LastUse) (h : Kept liveOut pre st)
    (honce : (written (pre ++ rest)).Nodup)
    (hscalar : Scalars rest) :
    ∃ final, rest.foldlM (visit liveOut lastUse) st = pure final ∧
      Kept liveOut (pre ++ rest) final ∧
      ∀ {Val World : Type} (m : Machine Op Val World) (s : State Register Val World),
        Agrees m s pre st → Agrees m s (pre ++ rest) final := by
  induction rest generalizing pre st with
  | nil =>
    rw [List.append_nil]
    exact ⟨st, rfl, h, fun m s ha => ha⟩
  | cons insn rest ih =>
    have hnew : ∀ x ∈ insn.dst, x ∉ written pre := fun x hx hmem => by
      rw [written, List.flatMap_append, List.flatMap_cons] at honce
      exact List.disjoint_left.mp (List.nodup_append'.mp honce).2.2 hmem
        (List.mem_append_left _ hx)
    obtain ⟨next, hvisit, hkept, hagrees⟩ := visit_spec lastUse h insn hnew
      fun imm dst heq => hscalar imm dst (heq ▸ List.mem_cons_self)
    have happ : pre ++ insn :: rest = pre ++ [insn] ++ rest := by
      rw [List.append_assoc, List.singleton_append]
    rw [happ] at honce ⊢
    obtain ⟨final, hfold, hkept', hagrees'⟩ := ih hkept honce
      fun imm dst hmem => hscalar imm dst (List.mem_cons_of_mem insn hmem)
    refine ⟨final, ?_, hkept', fun m s ha => hagrees' m s (hagrees m s ha)⟩
    rw [List.foldlM_cons, hvisit]
    exact hfold

end Run

/-- The block does the same as before, and leaves the same values in the registers that are live
out. -/
theorem removeLOADIs_same (liveOut : Finset Register) {bb : List (Insn Op)}
    (honce : (written bb).Nodup) (hscalar : Scalars bb) :
    ∃ bb', removeLOADIs liveOut bb = pure bb' ∧ Same (liveOut : Set Register) bb bb' := by
  have hinsns := buildRegInfo_insns bb
  have hnodup : (written (buildRegInfo bb).insns).Nodup := by
    rw [hinsns]
    exact honce.sublist (List.filter_sublist.flatMap _)
  have hstart : Kept liveOut ([] : List (Insn Op)) ⟨[], 2, [], fun _ => none⟩ :=
    ⟨fun r t h => (by cases h), fun e he => absurd he List.not_mem_nil⟩
  have hrest : Scalars (buildRegInfo bb).insns := fun imm dst hmem => by
    rw [hinsns] at hmem
    exact hscalar imm dst (List.mem_filter.mp hmem).1
  obtain ⟨final, hfold, hkept, hagrees⟩ :=
    foldlM_spec (buildRegInfo bb).lastUse hstart (by rwa [List.nil_append]) hrest
  refine ⟨final.insns, ?_, fun m s => ?_⟩
  · rw [removeLOADIs, hfold]
    rfl
  · have ha := hagrees m s ⟨rfl, fun _ _ => rfl, fun r t h => (by cases h),
      fun e he => absurd he List.not_mem_nil⟩
    rw [List.nil_append, hinsns] at ha
    have hself : execBlock m s (bb.filter fun insn => ! insn.isSelfMov) = execBlock m s bb :=
      execBlock_filter m
    rw [← hself]
    refine ⟨fun r hr => (ha.same r ?_).symm, ha.world.symm⟩
    by_contra hne
    obtain ⟨t, ht⟩ := Option.ne_none_iff_exists'.mp hne
    exact (hkept.moved r t ht).2.2.2 (not_not.mp hr)

/-- Two registers with the same immediate; the second is read and is not live out. -/
theorem removeLOADIs_twice : ∃ bb', removeLOADIs {3}
      [.loadi (Immediate.ofWord TYPE_S32 5) 1, .loadi (Immediate.ofWord TYPE_S32 5) 2,
        .other () [3] [1, 2]] = pure bb' ∧
    Same (({3} : Finset Register) : Set Register)
      [.loadi (Immediate.ofWord TYPE_S32 5) 1, .loadi (Immediate.ofWord TYPE_S32 5) 2,
        .other () [3] [1, 2]] bb' := by
  have hscalar : Scalar (Immediate.ofWord TYPE_S32 5) := ⟨rfl, by decide, by decide⟩
  refine removeLOADIs_same {3} (by decide) fun imm dst hmem => ?_
  simp only [List.mem_cons, Insn.loadi.injEq, reduceCtorEq, List.not_mem_nil, or_false] at hmem
  rcases hmem with ⟨rfl, -⟩ | ⟨rfl, -⟩
  · exact hscalar
  · exact hscalar

end RemoveLoadis

end Llvm
