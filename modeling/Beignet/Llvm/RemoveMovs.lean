/-
`GenWriter::removeMOVs` (`llvm_gen_backend.cpp`): from the end of a block backwards, a MOV is
removed and its source renamed to its destination, from the instruction that last wrote the source
on.

The table of the last uses is not refreshed: the instruction that it names may have been removed, or
stand after the MOV, and then the walk from it does not reach the MOV.  And only the instructions up
to the MOV are renamed, while a later MOV may copy the same source.

* `Inv` — what the table still says of the block during the walk;
* `same_patch` — a removal that keeps the results;
* **`removeMOVs_iff`** — when the block does the same as before.
-/
import Beignet.Llvm.BlockInsns

namespace Llvm

namespace RemoveMovs

open BlockInsns StraightLine

variable {Op Val World : Type}

/-! ### The code -/

/-- From the instruction after the writer to the MOV, which is `k` instructions on. -/
def patchSrc (src dst : Register) : ℕ → List (Insn Op) → List (Insn Op)
  | 0, bb => bb.tail
  | k + 1, next :: bb => replaceSrc next src dst :: patchSrc src dst k bb
  | _ + 1, [] => []

/-- From the writer, at the place `q`. -/
def patch (src dst : Register) : ℕ → ℕ → List (Insn Op) → List (Insn Op)
  | 0, k, writer :: bb => replaceDst writer src dst :: patchSrc src dst k bb
  | q + 1, k, insn :: bb => insn :: patch src dst q k bb
  | _, _, [] => []

/-- The loop; `n` is the place after the iterator.  The first iterator of the source, which passes
a branch, is never used: the loop declares another, at the last instruction. -/
def walk (liveOut : Finset Register) (lastUse : LastUse) :
    ℕ → List (Insn Op) → Option (List (Insn Op))
  | 0, bb => some bb
  | n + 1, bb =>
    match bb[n]? with
    | some (.mov dst src) =>
      if src ∈ liveOut then walk liveOut lastUse n bb
      else if (lastUse src).lastWrite = 0 then walk liveOut lastUse n bb
      else if (lastUse dst).lastRead > (lastUse src).lastWrite then walk liveOut lastUse n bb
      else
        match (lastUse src).lastWriteInsn with
        | some q =>
          -- `next` starts behind the MOV otherwise, and never meets it
          if q < n then walk liveOut lastUse n (patch src dst q (n - q - 1) bb) else none
        | none => none
    | some (.loadi _ _) => walk liveOut lastUse n bb
    | _ => some bb

def removeMOVs (liveOut : Finset Register) (bb : List (Insn Op)) : Option (List (Insn Op)) :=
  let info := buildRegInfo bb
  walk liveOut info.lastUse info.insns.length info.insns

/-! ### The condition -/

/-- The values are the registers that they come from at the start of the block, as far as MOVs hand
them on. -/
def tracer : Machine Op (Option Register) Unit where
  load _ _ := none
  run _ _ w := (fun _ => none, w)

def origin (bb : List (Insn Op)) (r : Register) : Option Register :=
  (execBlock tracer ⟨some, ()⟩ bb).regs r

/-- The writer is before the MOV at the place `n`, and no register that is live out gets the source
from an instruction behind it, unless the source has the value it had before the block. -/
def Harmless (liveOut : Finset Register) (q n : ℕ) (src : Register) (bb : List (Insn Op)) : Prop :=
  q < n ∧ ((∃ r ∈ liveOut, origin (bb.drop (n + 1)) r = some src) →
    origin (bb.take n) src = some src)

/-- The three tests of the loop. -/
def Tries (liveOut : Finset Register) (lastUse : LastUse) (dst src : Register) : Prop :=
  ¬ (src ∈ liveOut ∨ (lastUse src).lastWrite = 0 ∨
    (lastUse dst).lastRead > (lastUse src).lastWrite)

instance (liveOut : Finset Register) (lastUse : LastUse) (dst src : Register) :
    Decidable (Tries liveOut lastUse dst src) := inferInstanceAs (Decidable (¬ _))

/-- Each removal of the loop is harmless. -/
def Safe (liveOut : Finset Register) (lastUse : LastUse) : ℕ → List (Insn Op) → Prop
  | 0, _ => True
  | n + 1, bb =>
    match bb[n]? with
    | some (.mov dst src) =>
      (¬ Tries liveOut lastUse dst src → Safe liveOut lastUse n bb) ∧
        (Tries liveOut lastUse dst src → ∃ q, (lastUse src).lastWriteInsn = some q ∧
          Harmless liveOut q n src bb ∧ Safe liveOut lastUse n (patch src dst q (n - q - 1) bb))
    | some (.loadi _ _) => Safe liveOut lastUse n bb
    | _ => True

/-! ### Renaming a stretch -/

section Patch

variable {src dst : Register}

theorem patchSrc_append (bb : List (Insn Op)) (insn : Insn Op) (cc : List (Insn Op)) :
    patchSrc src dst bb.length (bb ++ insn :: cc) =
      bb.map (fun next => replaceSrc next src dst) ++ cc := by
  induction bb with
  | nil => rfl
  | cons next bb ih => exact congrArg _ ih

theorem patch_append (aa : List (Insn Op)) (writer : Insn Op) (bb : List (Insn Op))
    (insn : Insn Op) (cc : List (Insn Op)) :
    patch src dst aa.length bb.length (aa ++ writer :: (bb ++ insn :: cc)) =
      aa ++ replaceDst writer src dst :: (bb.map (fun next => replaceSrc next src dst) ++ cc) := by
  induction aa with
  | nil => exact congrArg _ (patchSrc_append bb insn cc)
  | cons a aa ih => exact congrArg _ ih

/-- A block is cut at the writer and at the MOV. -/
theorem exists_split {bb : List (Insn Op)} {q n : ℕ} {writer insn : Insn Op} (hqn : q < n)
    (hq : bb[q]? = some writer) (hn : bb[n]? = some insn) :
    ∃ aa mm cc, bb = aa ++ writer :: (mm ++ insn :: cc) ∧ aa.length = q ∧
      mm.length = n - q - 1 ∧ cc = bb.drop (n + 1) ∧ aa ++ writer :: mm = bb.take n := by
  obtain ⟨hlt, hget⟩ := List.getElem?_eq_some_iff.mp hn
  obtain ⟨hltq, hgetq⟩ := List.getElem?_eq_some_iff.mp hq
  have hsplit : bb = bb.take n ++ insn :: bb.drop (n + 1) := by
    rw [← hget, ← List.drop_eq_getElem_cons hlt, List.take_append_drop]
  have hlen : (bb.take n).length = n := by
    rw [List.length_take]
    omega
  have hfront : bb.take n = (bb.take n).take q ++ writer :: (bb.take n).drop (q + 1) := by
    have hw : (bb.take n)[q] = writer := by
      rw [List.getElem_take, hgetq]
    rw [← hw, ← List.drop_eq_getElem_cons (by omega), List.take_append_drop]
  refine ⟨(bb.take n).take q, (bb.take n).drop (q + 1), bb.drop (n + 1), ?_, ?_, ?_, rfl, ?_⟩
  · rw [← List.cons_append, ← List.append_assoc, ← hfront]
    exact hsplit
  · rw [List.length_take]
    omega
  · rw [List.length_drop]
    omega
  · exact hfront.symm

/-- What is at a place afterwards. -/
theorem getElem?_patch {bb : List (Insn Op)} {q n : ℕ} {writer insn : Insn Op} (hqn : q < n)
    (hq : bb[q]? = some writer) (hn : bb[n]? = some insn) (j : ℕ) :
    (patch src dst q (n - q - 1) bb)[j]? =
      if j < q then bb[j]?
      else if j = q then some (replaceDst writer src dst)
      else if j < n then bb[j]?.map fun next => replaceSrc next src dst
      else bb[j + 1]? := by
  obtain ⟨aa, mm, cc, rfl, rfl, hk, -, -⟩ := exists_split hqn hq hn
  rw [← hk, patch_append]
  rcases lt_trichotomy j aa.length with hlt | rfl | hgt
  · rw [if_pos hlt, List.getElem?_append_left hlt, List.getElem?_append_left hlt]
  · rw [if_neg (lt_irrefl _), if_pos rfl, List.getElem?_append_right le_rfl, Nat.sub_self]
    rfl
  · obtain ⟨i, rfl⟩ : ∃ i, j = aa.length + 1 + i := ⟨j - aa.length - 1, by omega⟩
    have hi : aa.length + 1 + i - aa.length = i + 1 := by omega
    rw [if_neg (by omega), if_neg (by omega), List.getElem?_append_right (by omega), hi,
      List.getElem?_cons_succ]
    by_cases him : i < mm.length
    · rw [if_pos (by omega), List.getElem?_append_left (by rw [List.length_map]; exact him),
        List.getElem?_map, List.getElem?_append_right (by omega), hi, List.getElem?_cons_succ,
        List.getElem?_append_left him]
    · rw [if_neg (by omega), List.getElem?_append_right (by rw [List.length_map]; omega),
        List.length_map, List.getElem?_append_right (by omega)]
      have hi' : aa.length + 1 + i + 1 - aa.length = i + 1 + 1 := by omega
      have hc : i + 1 - mm.length = i - mm.length + 1 := by omega
      rw [hi', List.getElem?_cons_succ, List.getElem?_append_right (by omega), hc,
        List.getElem?_cons_succ]

section Places

variable {bb : List (Insn Op)} {q n j : ℕ} {writer insn : Insn Op} {x : Register}

theorem writes_patch (hqn : q < n) (hq : bb[q]? = some writer) (hn : bb[n]? = some insn)
    (hj : j < n) (h : Writes (patch src dst q (n - q - 1) bb) j x) :
    (Writes bb j x ∧ (j = q → x ≠ src)) ∨ j = q ∧ x = dst := by
  obtain ⟨insn', hget, hx⟩ := h
  rw [getElem?_patch hqn hq hn] at hget
  split at hget
  · next hlt => exact .inl ⟨⟨insn', hget, hx⟩, fun heq => absurd heq hlt.ne⟩
  split at hget
  · next hjq =>
    cases hget
    rw [replaceDst, Insn.dst_mapDst, List.mem_map] at hx
    obtain ⟨y, hy, rfl⟩ := hx
    by_cases hys : y = src
    · exact .inr ⟨hjq, by rw [hys, rename_self]⟩
    · rw [rename_of_ne hys]
      exact .inl ⟨⟨writer, hjq ▸ hq, hy⟩, fun _ => hys⟩
  next hjq =>
    rw [Option.map_eq_some_iff] at hget
    obtain ⟨insn'', hget, rfl⟩ := hget
    rw [replaceSrc, Insn.dst_mapSrc] at hx
    exact .inl ⟨⟨insn'', hget, hx⟩, fun heq => absurd heq hjq⟩

theorem writes_patch_of_ne (hqn : q < n) (hq : bb[q]? = some writer) (hn : bb[n]? = some insn)
    (hj : j < n) (hx : x ≠ src) (h : Writes bb j x) :
    Writes (patch src dst q (n - q - 1) bb) j x := by
  obtain ⟨insn', hget, hmem⟩ := h
  rcases lt_trichotomy j q with hlt | rfl | hgt
  · refine ⟨insn', ?_, hmem⟩
    rw [getElem?_patch hqn hq hn, if_pos hlt, hget]
  · refine ⟨replaceDst writer src dst, ?_, ?_⟩
    · rw [getElem?_patch hqn hq hn, if_neg (lt_irrefl _), if_pos rfl]
    · obtain rfl := Option.some.inj (hq.symm.trans hget)
      rw [replaceDst, Insn.dst_mapDst, List.mem_map]
      exact ⟨x, hmem, rename_of_ne hx⟩
  · refine ⟨replaceSrc insn' src dst, ?_, ?_⟩
    · rw [getElem?_patch hqn hq hn, if_neg (by omega), if_neg (by omega), if_pos hj, hget,
        Option.map_some]
    · rw [replaceSrc, Insn.dst_mapSrc]
      exact hmem

theorem reads_patch (hqn : q < n) (hq : bb[q]? = some writer) (hn : bb[n]? = some insn)
    (hj : j < n) (h : Reads (patch src dst q (n - q - 1) bb) j x) :
    (j ≤ q ∧ Reads bb j x) ∨ q < j ∧ ((x ≠ src ∧ Reads bb j x) ∨ x = dst) := by
  obtain ⟨insn', hget, hx⟩ := h
  rw [getElem?_patch hqn hq hn] at hget
  split at hget
  · next hlt => exact .inl ⟨hlt.le, insn', hget, hx⟩
  split at hget
  · next hjq =>
    cases hget
    rw [replaceDst, Insn.src_mapDst] at hx
    exact .inl ⟨hjq.le, writer, hjq ▸ hq, hx⟩
  rw [Option.map_eq_some_iff] at hget
  obtain ⟨insn'', hget, rfl⟩ := hget
  rw [replaceSrc, Insn.src_mapSrc, List.mem_map] at hx
  obtain ⟨y, hy, rfl⟩ := hx
  refine .inr ⟨by omega, ?_⟩
  by_cases hys : y = src
  · exact .inr (by rw [hys, rename_self])
  · rw [rename_of_ne hys]
    exact .inl ⟨hys, insn'', hget, hy⟩

end Places

end Patch

/-! ### The invariant -/

/-- A register that is written at most once. -/
theorem writes_unique {bb : List (Insn Op)} (h : (written bb).Nodup) {j k : ℕ} {x : Register}
    (hj : Writes bb j x) (hk : Writes bb k x) : j = k := by
  obtain ⟨a, ha, hxa⟩ := hj
  obtain ⟨b, hb, hxb⟩ := hk
  obtain ⟨hlj, rfl⟩ := List.getElem?_eq_some_iff.mp ha
  obtain ⟨hlk, rfl⟩ := List.getElem?_eq_some_iff.mp hb
  have hpair := List.pairwise_iff_getElem.mp (List.nodup_flatMap.mp h).2
  rcases lt_trichotomy j k with hlt | heq | hgt
  · exact absurd hxb (List.disjoint_left.mp (hpair j k hlj hlk hlt) hxa)
  · exact heq
  · exact absurd hxa (List.disjoint_left.mp (hpair k j hlk hlj hgt) hxb)

theorem mem_written {bb : List (Insn Op)} {x : Register} :
    x ∈ written bb ↔ ∃ j, Writes bb j x := by
  rw [written, List.mem_flatMap]
  constructor
  · rintro ⟨insn, hmem, hx⟩
    obtain ⟨j, hj⟩ := List.mem_iff_getElem?.mp hmem
    exact ⟨j, insn, hj, hx⟩
  · rintro ⟨j, insn, hj, hx⟩
    exact ⟨insn, List.mem_of_getElem? hj, hx⟩

def isCopy : Insn Op → Bool
  | .other .. => false
  | _ => true

/-- The block `bb` that has come of `o`, when the places from `n` on have been passed.  What is read
is read in `o`, or is written before; who wrote a register in `o` writes it, or it is not read any
more; and no register is written after its place in `o`. -/
structure Inv (o : List (Insn Op)) (n : ℕ) (bb : List (Insn Op)) : Prop where
  once : (written bb).Nodup
  known : ∀ j < n, ∀ x, Reads bb j x → Reads o j x ∨ ∃ k < j, Writes bb k x
  gone : ∀ q < n, ∀ x, Writes o q x → Writes bb q x ∨ ∀ j, q < j → j < n → ¬ Reads bb j x
  later : ∀ j < n, ∀ x q, Writes bb j x → Writes o q x → j ≤ q
  tail : ∀ insn ∈ bb.drop n, isCopy insn

theorem inv_start {o : List (Insn Op)} (h : (written o).Nodup) : Inv o o.length o := by
  refine ⟨h, fun j _ x hx => .inl hx, fun q _ x hx => .inl hx,
    fun j _ x q hj hq => (writes_unique h hj hq).le, ?_⟩
  rw [List.drop_length]
  exact fun insn hmem => absurd hmem List.not_mem_nil

section Step

variable {o bb : List (Insn Op)} {n q : ℕ} {dst src : Register} {insn : Insn Op}

/-- An instruction that stays. -/
theorem Inv.skip (h : Inv o (n + 1) bb) (hn : bb[n]? = some insn) (hcopy : isCopy insn = true) :
    Inv o n bb := by
  refine ⟨h.once, fun j hj => h.known j (by omega), fun q hq x hx => ?_,
    fun j hj => h.later j (by omega), ?_⟩
  · exact (h.gone q (by omega) x hx).imp_right fun hno j hqj hj => hno j hqj (by omega)
  · obtain ⟨hlt, rfl⟩ := List.getElem?_eq_some_iff.mp hn
    rw [List.drop_eq_getElem_cons hlt]
    intro insn hmem
    rcases List.mem_cons.mp hmem with rfl | hmem
    · exact hcopy
    · exact h.tail insn hmem

theorem writes_mov (hn : bb[n]? = some (.mov dst src)) : Writes bb n dst :=
  ⟨_, hn, List.mem_singleton_self dst⟩

theorem written_patch (h : (written bb).Nodup) (hqn : q < n) (hq : Writes bb q src)
    (hn : bb[n]? = some (.mov dst src)) :
    (written (patch src dst q (n - q - 1) bb)).Nodup := by
  obtain ⟨writer, hw, hsrc⟩ := hq
  obtain ⟨aa, mm, cc, rfl, rfl, hk, -, -⟩ := exists_split hqn hw hn
  rw [← hk, patch_append]
  have hmap : ∀ l : List (Insn Op), written (l.map fun next => replaceSrc next src dst) =
      written l := fun l => by
    rw [written, List.flatMap_map]
    exact List.flatMap_congr fun insn _ => Insn.dst_mapSrc _ insn
  have hsplit : ∀ (w : Insn Op) (l : List (Insn Op)), written (aa ++ w :: l) =
      written aa ++ (w.dst ++ written l) := fun w l => by
    rw [written, List.flatMap_append, List.flatMap_cons]
    rfl
  have happ : ∀ l l' : List (Insn Op), written (l ++ l') = written l ++ written l' :=
    fun l l' => List.flatMap_append
  rw [hsplit, happ, hmap, replaceDst, Insn.dst_mapDst]
  have hcons : written (Insn.mov dst src :: cc) = dst :: written cc := rfl
  rw [hsplit, happ, hcons] at h
  -- without the MOV, the registers are those of before
  have hrest : (written aa ++ (writer.dst ++ (written mm ++ written cc))).Nodup ∧
      dst ∉ written aa ++ (writer.dst ++ (written mm ++ written cc)) := by
    have hperm : (written aa ++ (writer.dst ++ (written mm ++ dst :: written cc))).Perm
        (dst :: (written aa ++ (writer.dst ++ (written mm ++ written cc)))) := by
      simp only [← List.append_assoc]
      exact List.perm_middle
    have hnodup := hperm.nodup_iff.mp h
    exact ⟨(List.nodup_cons.mp hnodup).2, (List.nodup_cons.mp hnodup).1⟩
  obtain ⟨hnodup, hdst⟩ := hrest
  have hid : ∀ l : List Register, src ∉ l → l.map (rename src dst) = l := fun l hl => by
    have hfix : ∀ r ∈ l, rename src dst r = id r := fun r hr =>
      rename_of_ne fun heq => hl (heq ▸ hr)
    rw [List.map_congr_left hfix, List.map_id]
  have hdisj := List.nodup_append'.mp hnodup
  have hdisj' := List.nodup_append'.mp hdisj.2.1
  have heq : written aa ++ (writer.dst.map (rename src dst) ++ (written mm ++ written cc)) =
      (written aa ++ (writer.dst ++ (written mm ++ written cc))).map (rename src dst) := by
    rw [List.map_append, List.map_append, hid (written aa), hid (written mm ++ written cc)]
    · exact List.disjoint_left.mp hdisj'.2.2 hsrc
    · exact fun hmem => List.disjoint_left.mp hdisj.2.2 hmem (List.mem_append_left _ hsrc)
  rw [heq]
  refine hnodup.map_on fun a ha b hb hab => ?_
  by_cases has : a = src
  · by_cases hbs : b = src
    · rw [has, hbs]
    · rw [has, rename_self, rename_of_ne hbs] at hab
      exact absurd (hab ▸ hb) hdst
  · by_cases hbs : b = src
    · rw [hbs, rename_self, rename_of_ne has] at hab
      exact absurd (hab ▸ ha) hdst
    · rwa [rename_of_ne has, rename_of_ne hbs] at hab

theorem drop_patch {writer : Insn Op} (hqn : q < n) (hw : bb[q]? = some writer)
    (hn : bb[n]? = some insn) :
    (patch src dst q (n - q - 1) bb).drop n = bb.drop (n + 1) := by
  refine List.ext_getElem? fun j => ?_
  rw [List.getElem?_drop, List.getElem?_drop, getElem?_patch hqn hw hn, if_neg (by omega),
    if_neg (by omega), if_neg (by omega)]
  congr 1
  omega

/-- A MOV that is removed. -/
theorem Inv.patch (h : Inv o (n + 1) bb) (hqn : q < n) (hq : Writes bb q src)
    (hn : bb[n]? = some (.mov dst src)) : Inv o n (patch src dst q (n - q - 1) bb) := by
  have hdst := writes_mov hn
  have hne : dst ≠ src := fun heq => hqn.ne (writes_unique h.once hq (heq ▸ hdst))
  have hq' := hq
  obtain ⟨writer, hw, hsrc⟩ := hq'
  refine ⟨written_patch h.once hqn hq hn, fun j hj x hx => ?_, fun q' hq' x hx => ?_,
    fun j hj x q' hx hx' => ?_, ?_⟩
  · -- a source is known from before, or is the new one, which the writer writes
    have hold : Reads bb j x → (x = src → j ≤ q) → Reads o j x ∨
        ∃ k < j, Writes (RemoveMovs.patch src dst q (n - q - 1) bb) k x := fun hread hxs => by
      refine (h.known j (by omega) x hread).imp_right ?_
      rintro ⟨k, hk, hwrites⟩
      have hxne : x ≠ src := fun heq => by
        have hkq : k = q := writes_unique h.once (heq ▸ hwrites) hq
        have := hxs heq
        omega
      exact ⟨k, hk, writes_patch_of_ne hqn hw hn (by omega) hxne hwrites⟩
    rcases reads_patch hqn hw hn hj hx with ⟨hle, hread⟩ | ⟨hlt, ⟨hxne, hread⟩ | rfl⟩
    · exact hold hread fun _ => hle
    · exact hold hread fun heq => absurd heq hxne
    · refine .inr ⟨q, hlt, replaceDst writer src x, ?_, ?_⟩
      · rw [getElem?_patch hqn hw hn, if_neg (lt_irrefl _), if_pos rfl]
      · rw [replaceDst, Insn.dst_mapDst, List.mem_map]
        exact ⟨src, hsrc, rename_self src x⟩
  · rcases h.gone q' (by omega) x hx with hwrites | hno
    · by_cases hxs : x = src
      · refine .inr fun j hqj hj hread => ?_
        have hqq : q' = q := writes_unique h.once (hxs ▸ hwrites) hq
        rcases reads_patch hqn hw hn hj hread with ⟨hle, -⟩ | ⟨-, ⟨hxne, -⟩ | heq⟩
        · omega
        · exact hxne hxs
        · exact hne (heq.symm.trans hxs)
      · exact .inl (writes_patch_of_ne hqn hw hn hq' hxs hwrites)
    · refine .inr fun j hqj hj hread => ?_
      rcases reads_patch hqn hw hn hj hread with ⟨-, hold⟩ | ⟨-, ⟨-, hold⟩ | heq⟩
      · exact hno j hqj (by omega) hold
      · exact hno j hqj (by omega) hold
      · have hle := h.later n (by omega) dst q' hdst (heq ▸ hx)
        omega
  · rcases writes_patch hqn hw hn hj hx with ⟨hold, -⟩ | ⟨rfl, rfl⟩
    · exact h.later j (by omega) x q' hold hx'
    · exact hqn.le.trans (h.later n (by omega) x q' hdst hx')
  · rw [drop_patch hqn hw hn]
    exact h.tail

end Step

/-! ### Values -/

section Origin

variable (m : Machine Op Val World) {s t : State Register Val World} {bb cc : List (Insn Op)}
variable {r x : Register}

/-- A register that has been handed on has the value of where it comes from. -/
theorem regs_of_origin (h : origin bb r = some x) : (execBlock m s bb).regs r = s.regs x :=
  execBlock_related (R := fun o v => ∀ x, o = some x → v = s.regs x) tracer m
    (fun _ _ _ h => by cases h)
    (fun _ _ _ _ _ _ _ h => by cases h) (s := ⟨some, ()⟩)
    (fun r x hrx => by rw [Option.some.inj hrx]) r x h

theorem origin_append : origin (bb ++ cc) r = (origin cc r).bind (origin bb) := by
  rw [origin, execBlock_append]
  exact execBlock_related (R := fun o o' => o' = o.bind (origin bb)) tracer tracer (fun _ _ => rfl)
    (fun _ _ _ _ _ _ => rfl) (s := ⟨some, ()⟩) (fun r => rfl) r

theorem origin_of_notMem (h : r ∉ written bb) : origin bb r = some r := execBlock_frame tracer h

@[simp] theorem origin_mov (d : Register) :
    origin [(Insn.mov d x : Insn Op)] r = if r = d then some x else some r := by
  rw [origin, execBlock_cons, execBlock_nil, Insn.action, step_copy]
  exact Function.update_apply _ _ _ _

/-- Where there are only copies, a value depends on where it comes from. -/
theorem regs_copies (hcopy : ∀ insn ∈ cc, isCopy insn)
    (h : ∀ x, origin cc r = some x → s.regs x = t.regs x) :
    (execBlock m s cc).regs r = (execBlock m t cc).regs r := by
  induction cc using List.reverseRecOn generalizing r with
  | nil => exact h r rfl
  | append_singleton cc insn ih =>
    have ih' := fun r => ih (r := r) fun insn' hmem => hcopy insn' (List.mem_append_left _ hmem)
    rw [execBlock_append, execBlock_append]
    cases insn with
    | mov d y =>
      simp only [execBlock_cons, execBlock_nil, Insn.action, step_copy, Function.update_apply]
      rw [origin_append, origin_mov] at h
      split
      · next hr =>
        rw [if_pos hr] at h
        exact ih' y h
      · next hr =>
        rw [if_neg hr] at h
        exact ih' r h
    | loadi imm d =>
      simp only [execBlock_cons, execBlock_nil, Insn.action, step_const, Function.update_apply]
      split
      · rfl
      · next hr =>
        refine ih' r fun x hx => h x ?_
        have hown : origin [(Insn.loadi imm d : Insn Op)] r = some r :=
          origin_of_notMem fun hmem => hr (List.mem_singleton.mp hmem)
        rw [origin_append, hown]
        exact hx
    | other op d y =>
      have := hcopy (.other op d y) (List.mem_append_right _ (List.mem_singleton_self _))
      cases this

theorem world_copies (hcopy : ∀ insn ∈ cc, isCopy insn) : (execBlock m s cc).world = s.world := by
  induction cc generalizing s with
  | nil => rfl
  | cons insn cc ih =>
    refine (ih fun insn' hmem => hcopy insn' (List.mem_cons_of_mem _ hmem)).trans ?_
    cases insn with
    | mov d y => rfl
    | loadi imm d => rfl
    | other op d y =>
      have := hcopy (.other op d y) List.mem_cons_self
      cases this

end Origin

/-! ### One removal -/

section Removal

variable {liveOut : Finset Register} {o bb : List (Insn Op)} {q n : ℕ} {dst src : Register}

/-- A removal that keeps the results. -/
theorem same_patch (h : Inv o (n + 1) bb) (hq : Writes bb q src)
    (hn : bb[n]? = some (.mov dst src))
    (hread : ∀ j, q < j → j < n → ¬ Reads bb j dst) (hharm : Harmless liveOut q n src bb) :
    Same (liveOut : Set Register) bb (patch src dst q (n - q - 1) bb) := by
  obtain ⟨hqn, hlive⟩ := hharm
  have hdst := writes_mov hn
  have hne : dst ≠ src := fun heq => hqn.ne (writes_unique h.once hq (heq ▸ hdst))
  obtain ⟨writer, hw, hmem⟩ := hq
  obtain ⟨aa, mm, cc, heq, hlen, hk, hcc, htake⟩ := exists_split hqn hw hn
  have hplace : ∀ insn ∈ mm, ∃ j, q < j ∧ j < n ∧ bb[j]? = some insn := fun insn hmem => by
    obtain ⟨i, hi⟩ := List.mem_iff_getElem?.mp hmem
    have hlt := (List.getElem?_eq_some_iff.mp hi).1
    refine ⟨q + 1 + i, by omega, by omega, ?_⟩
    rw [heq, List.getElem?_append_right (by omega)]
    have hidx : q + 1 + i - aa.length = i + 1 := by omega
    rw [hidx, List.getElem?_cons_succ, List.getElem?_append_left hlt, hi]
  have hmm : ∀ insn ∈ mm, src ∉ insn.dst ∧ dst ∉ insn.dst ∧ dst ∉ insn.src := fun insn hmem' => by
    obtain ⟨j, hqj, hjn, hj⟩ := hplace insn hmem'
    refine ⟨fun hx => ?_, fun hx => ?_, fun hx => hread j hqj hjn ⟨insn, hj, hx⟩⟩
    · exact hqj.ne (writes_unique h.once ⟨writer, hw, hmem⟩ ⟨insn, hj, hx⟩)
    · exact hjn.ne (writes_unique h.once ⟨insn, hj, hx⟩ hdst)
  have hwdst : dst ∉ writer.dst := fun hx => hqn.ne (writes_unique h.once ⟨writer, hw, hx⟩ hdst)
  intro Val World m s
  have hset : patch src dst q (n - q - 1) bb =
      aa ++ replaceDst writer src dst :: (mm.map (fun next => replaceSrc next src dst) ++ cc) := by
    rw [← hk, ← hlen, heq, patch_append]
  -- what both blocks have done before the rest of the block
  have hbetween : ∀ b ∈ mm.map (Insn.action m), src ∉ b.dst ∧ dst ∉ b.dst ∧ dst ∉ b.src := by
    intro b hb
    obtain ⟨insn, hinsn, rfl⟩ := List.mem_map.mp hb
    rw [dst_action, src_action]
    exact hmm insn hinsn
  have hco := exec_coalesce (execBlock m s aa) (a := writer.action m) (by rwa [dst_action])
    (by rwa [dst_action]) hbetween
  have hbefore : execBlock m s bb = execBlock m (StraightLine.exec (execBlock m s aa)
      (writer.action m :: mm.map (Insn.action m) ++ [Action.copy dst src])) cc := by
    rw [heq, execBlock_append, execBlock_cons, execBlock_append, execBlock_cons, List.cons_append,
      StraightLine.exec_cons, StraightLine.exec_append]
    rfl
  have hafter : execBlock m s (patch src dst q (n - q - 1) bb) =
      execBlock m (StraightLine.exec (execBlock m s aa)
        ((writer.action m).mapDst (rename src dst) ::
          (mm.map (Insn.action m)).map (Action.mapSrc (rename src dst)))) cc := by
    rw [hset, execBlock_append, execBlock_cons, execBlock_append, replaceDst, action_mapDst,
      StraightLine.exec_cons, List.map_map]
    congr 1
    rw [execBlock, List.map_map]
    congr 1
    exact List.map_congr_left fun insn _ => action_mapSrc m insn _
  generalize hτ : StraightLine.exec (execBlock m s aa)
    (writer.action m :: mm.map (Insn.action m) ++ [Action.copy dst src]) = τ at hco hbefore
  generalize hτ' : StraightLine.exec (execBlock m s aa)
    ((writer.action m).mapDst (rename src dst) ::
      (mm.map (Insn.action m)).map (Action.mapSrc (rename src dst))) = τ' at hco hafter
  have hcopy : ∀ insn ∈ cc, isCopy insn := by
    rw [hcc]
    exact h.tail
  rw [hbefore, hafter]
  refine ⟨fun r hr => regs_copies m hcopy fun x hx => ?_, ?_⟩
  · by_cases hxs : x = src
    · -- the source is as it was before the block, in both
      have hlr : r ∈ liveOut := not_not.mp hr
      have horigin := hlive ⟨r, hlr, by rw [← hcc, hx, hxs]⟩
      have hleft : τ.regs src = s.regs src := by
        rw [← regs_of_origin m (s := s) horigin, ← htake, ← hτ, StraightLine.exec_append,
          StraightLine.exec_cons, StraightLine.exec_nil, step_copy, execBlock_append]
        exact Function.update_of_ne hne.symm _ _
      have hright : τ'.regs src = s.regs src := by
        rw [← hτ', StraightLine.exec_frame, execBlock_frame]
        · rw [mem_written]
          rintro ⟨j, insn, hj, hsrc'⟩
          have hlt := (List.getElem?_eq_some_iff.mp hj).1
          have hj' : bb[j]? = some insn := by
            rw [heq, List.getElem?_append_left hlt, hj]
          have := writes_unique h.once ⟨writer, hw, hmem⟩ ⟨insn, hj', hsrc'⟩
          omega
        · rw [writes_cons, List.mem_append, not_or]
          refine ⟨notMem_map_rename hne, fun hmem' => ?_⟩
          obtain ⟨b, hb, hsrc'⟩ := List.mem_flatMap.mp hmem'
          rw [List.map_map, List.mem_map] at hb
          obtain ⟨insn, hinsn, rfl⟩ := hb
          refine (hmm insn hinsn).1 ?_
          rw [← dst_action m]
          exact hsrc'
      rw [hxs, hleft, hright]
    · exact hco.regs x hxs
  · rw [world_copies m hcopy, world_copies m hcopy]
    exact hco.world

end Removal

/-! ### Harm -/

section Harm

variable {liveOut : Finset Register} {lastUse : LastUse} {bb bb' : List (Insn Op)} {n : ℕ}
variable {src r : Register}

theorem mem_written_take {x : Register} : x ∈ written (bb.take n) ↔ ∃ j < n, Writes bb j x := by
  rw [mem_written]
  constructor
  · rintro ⟨j, insn, hj, hx⟩
    have hlt := (List.getElem?_eq_some_iff.mp hj).1
    rw [List.length_take] at hlt
    rw [List.getElem?_take_of_lt (by omega)] at hj
    exact ⟨j, by omega, insn, hj, hx⟩
  · rintro ⟨j, hjn, insn, hj, hx⟩
    exact ⟨j, insn, by rw [List.getElem?_take_of_lt hjn, hj], hx⟩

/-- After a removal that is not harmless, a register that is live out gets what the source had
before the block. -/
structure Broken (n : ℕ) (src r : Register) (bb : List (Insn Op)) : Prop where
  front : ∀ j < n, ¬ Writes bb j src
  tail : origin (bb.drop n) r = some src

theorem Broken.origin (h : Broken n src r bb) : origin bb r = some src := by
  rw [← List.take_append_drop n bb, origin_append, h.tail]
  refine origin_of_notMem fun hmem => ?_
  obtain ⟨j, hj, hw⟩ := mem_written_take.mp hmem
  exact h.front j hj hw

theorem Broken.skip {insn : Insn Op} (h : Broken (n + 1) src r bb) (hn : bb[n]? = some insn) :
    Broken n src r bb := by
  obtain ⟨hlt, rfl⟩ := List.getElem?_eq_some_iff.mp hn
  refine ⟨fun j hj => h.front j (by omega), ?_⟩
  rw [List.drop_eq_getElem_cons hlt, ← List.singleton_append, origin_append, h.tail]
  refine origin_of_notMem fun hmem => h.front n (Nat.lt_succ_self n) ⟨_, hn, ?_⟩
  rwa [written, List.flatMap_singleton] at hmem

theorem Broken.patch {q : ℕ} {d x : Register} (h : Broken (n + 1) src r bb) (hqn : q < n)
    (hn : bb[n]? = some (.mov d x)) : Broken n src r (patch x d q (n - q - 1) bb) := by
  have hlt := (List.getElem?_eq_some_iff.mp hn).1
  have hw : bb[q]? = some bb[q] := List.getElem?_eq_getElem (by omega)
  refine ⟨fun j hj hwrites => ?_, ?_⟩
  · rcases writes_patch hqn hw hn hj hwrites with ⟨hold, -⟩ | ⟨-, rfl⟩
    · exact h.front j (by omega) hold
    · exact h.front n (Nat.lt_succ_self n) (writes_mov hn)
  · rw [drop_patch hqn hw hn]
    exact h.tail

end Harm

/-! ### The result -/

section Walk

variable {liveOut : Finset Register} {lastUse : LastUse} {o bb bb' : List (Insn Op)} {n : ℕ}
variable {dst src r : Register}

theorem walk_mov (hn : bb[n]? = some (.mov dst src)) (h : ¬ Tries liveOut lastUse dst src) :
    walk liveOut lastUse (n + 1) bb = walk liveOut lastUse n bb := by
  rw [Tries, not_not] at h
  simp only [walk, hn]
  split
  · rfl
  split
  · rfl
  split
  · rfl
  · next h1 h2 h3 => exact absurd h (not_or.mpr ⟨h1, not_or.mpr ⟨h2, h3⟩⟩)

theorem walk_tries (hn : bb[n]? = some (.mov dst src)) (h : Tries liveOut lastUse dst src) :
    walk liveOut lastUse (n + 1) bb = (lastUse src).lastWriteInsn.bind fun q =>
      if q < n then walk liveOut lastUse n (patch src dst q (n - q - 1) bb) else none := by
  obtain ⟨h1, h2⟩ := not_or.mp h
  obtain ⟨h2, h3⟩ := not_or.mp h2
  simp only [walk, hn, if_neg h1, if_neg h2, if_neg h3]
  cases (lastUse src).lastWriteInsn with
  | none => rfl
  | some q => rfl

/-- What is broken stays so. -/
theorem origin_walk (h : Broken n src r bb) (hwalk : walk liveOut lastUse n bb = some bb') :
    origin bb' r = some src := by
  induction n generalizing bb with
  | zero =>
    cases hwalk
    exact h.origin
  | succ n ih =>
    cases hn : bb[n]? with
    | none =>
      simp only [walk, hn, Option.some.injEq] at hwalk
      exact hwalk ▸ h.origin
    | some insn =>
      cases insn with
      | mov d x =>
        by_cases htries : Tries liveOut lastUse d x
        · rw [walk_tries hn htries, Option.bind_eq_some_iff] at hwalk
          obtain ⟨q, -, hwalk⟩ := hwalk
          split at hwalk
          · next hqn => exact ih (h.patch hqn hn) hwalk
          · cases hwalk
        · rw [walk_mov hn htries] at hwalk
          exact ih (h.skip hn) hwalk
      | loadi imm d =>
        simp only [walk, hn] at hwalk
        exact ih (h.skip hn) hwalk
      | other op d x =>
        simp only [walk, hn, Option.some.injEq] at hwalk
        exact hwalk ▸ h.origin

/-- What the tests tell of the block, if the writer is before the MOV. -/
theorem Inv.tries {info : RegInfo Op} (h : Inv info.insns (n + 1) bb) (hscan : Scanned info)
    (hn : bb[n]? = some (.mov dst src)) (htries : Tries liveOut info.lastUse dst src) :
    ∃ q, (info.lastUse src).lastWriteInsn = some q ∧ (q < n → Writes bb q src ∧
      ∀ j, q < j → j < n → ¬ Reads bb j dst) := by
  obtain ⟨-, h2⟩ := not_or.mp htries
  obtain ⟨h2, h3⟩ := not_or.mp h2
  obtain ⟨q, hq, hlast, hwrites⟩ := hscan.write src h2
  refine ⟨q, hq, fun hqn => ⟨?_, fun j hqj hjn hread => ?_⟩⟩
  · refine (h.gone q (by omega) src hwrites).resolve_right fun hno => ?_
    exact hno n hqn (Nat.lt_succ_self n) ⟨_, hn, List.mem_singleton_self src⟩
  · rcases h.known j (by omega) dst hread with hold | ⟨k, hkj, hk⟩
    · have hle := hscan.read j dst hold
      omega
    · have hkn := writes_unique h.once hk (writes_mov hn)
      omega

/-- A removal that is not harmless shows. -/
theorem not_same_of_harm {q : ℕ} (h : Inv o (n + 1) bb) (hqn : q < n) (hq : Writes bb q src)
    (hn : bb[n]? = some (.mov dst src)) (hharm : ¬ Harmless liveOut q n src bb)
    (hwalk : walk liveOut lastUse n (patch src dst q (n - q - 1) bb) = some bb')
    (hsame : Same (liveOut : Set Register) bb bb') : False := by
  have hne : dst ≠ src := fun heq => hqn.ne (writes_unique h.once hq (heq ▸ writes_mov hn))
  refine hharm ⟨hqn, ?_⟩
  rintro ⟨r, hr, hlive⟩
  obtain ⟨writer, hw, hmem⟩ := hq
  have hbroken : Broken n src r (patch src dst q (n - q - 1) bb) := by
    refine ⟨fun j hj hwrites => ?_, ?_⟩
    · rcases writes_patch hqn hw hn hj hwrites with ⟨hold, hno⟩ | ⟨-, heq⟩
      · exact hno (writes_unique h.once hold ⟨writer, hw, hmem⟩) rfl
      · exact hne heq.symm
    · rw [drop_patch hqn hw hn]
      exact hlive
  have horigin : origin bb r = some src :=
    ((hsame tracer ⟨some, ()⟩).regs r (not_not.mpr hr)).trans (origin_walk hbroken hwalk)
  obtain ⟨hlt, hget⟩ := List.getElem?_eq_some_iff.mp hn
  rw [← List.take_append_drop (n + 1) bb, origin_append, hlive,
    List.take_succ_eq_append_getElem hlt, hget] at horigin
  rwa [Option.bind_some, origin_append, origin_mov, if_neg hne.symm] at horigin

theorem walk_iff {info : RegInfo Op} (hscan : Scanned info) (h : Inv info.insns n bb)
    (hsame : Same (liveOut : Set Register) info.insns bb) :
    (∃ bb', walk liveOut info.lastUse n bb = some bb' ∧
      Same (liveOut : Set Register) info.insns bb') ↔ Safe liveOut info.lastUse n bb := by
  induction n generalizing bb with
  | zero => exact iff_of_true ⟨bb, rfl, hsame⟩ trivial
  | succ n ih =>
    cases hn : bb[n]? with
    | none =>
      simp only [walk, Safe, hn]
      exact iff_of_true ⟨bb, rfl, hsame⟩ trivial
    | some insn =>
      cases insn with
      | mov dst src =>
        simp only [Safe, hn]
        by_cases htries : Tries liveOut info.lastUse dst src
        · rw [walk_tries hn htries]
          obtain ⟨q, hq, htold⟩ := h.tries hscan hn htries
          rw [hq, Option.bind_some]
          constructor
          · rintro ⟨bb', hwalk, hsame'⟩
            refine ⟨fun hno => absurd htries hno, fun _ => ⟨q, rfl, ?_⟩⟩
            split at hwalk
            · next hqn =>
              obtain ⟨hwrites, hread⟩ := htold hqn
              have hharm : Harmless liveOut q n src bb := by
                by_contra hharm
                exact not_same_of_harm h hqn hwrites hn hharm hwalk
                  (Same.trans (Same.symm hsame) hsame')
              refine ⟨hharm, (ih (h.patch hqn hwrites hn) ?_).mp ⟨bb', hwalk, hsame'⟩⟩
              exact Same.trans hsame (same_patch h hwrites hn hread hharm)
            · cases hwalk
          · rintro ⟨-, hsafe⟩
            obtain ⟨q', hq', hharm, hsafe⟩ := hsafe htries
            obtain rfl := Option.some.inj hq'
            obtain ⟨hwrites, hread⟩ := htold hharm.1
            rw [if_pos hharm.1]
            refine (ih (h.patch hharm.1 hwrites hn) ?_).mpr hsafe
            exact Same.trans hsame (same_patch h hwrites hn hread hharm)
        · rw [walk_mov hn htries, ih (h.skip hn rfl) hsame]
          exact ⟨fun hsafe => ⟨fun _ => hsafe, fun hyes => absurd hyes htries⟩,
            fun hsafe => hsafe.1 htries⟩
      | loadi imm dst =>
        simp only [walk, Safe, hn]
        exact ih (h.skip hn rfl) hsame
      | other op dst src =>
        simp only [walk, Safe, hn]
        exact iff_of_true ⟨bb, rfl, hsame⟩ trivial

end Walk

/-- The block does the same as before, and leaves the same values in the registers that are live
out, iff each MOV that the loop removes has its source's writer before it, and behind it no copy of
the source that a register gets which is live out. -/
theorem removeMOVs_iff (liveOut : Finset Register) {bb : List (Insn Op)}
    (h : (written bb).Nodup) :
    (∃ bb', removeMOVs liveOut bb = some bb' ∧ Same (liveOut : Set Register) bb bb') ↔
      Safe liveOut (buildRegInfo bb).lastUse (buildRegInfo bb).insns.length
        (buildRegInfo bb).insns := by
  have hfilter : Same (liveOut : Set Register) bb (buildRegInfo bb).insns := fun m s => by
    rw [buildRegInfo_insns, execBlock_filter]
    exact AgreeOff.refl _ _
  have honce : (written (buildRegInfo bb).insns).Nodup := by
    rw [buildRegInfo_insns]
    exact h.sublist (List.filter_sublist.flatMap _)
  rw [← walk_iff (scanned_buildRegInfo bb) (inv_start honce) fun m s => AgreeOff.refl _ _]
  exact exists_congr fun bb' => and_congr_right fun _ =>
    ⟨fun hs => Same.trans (Same.symm hfilter) hs, fun hs => Same.trans hfilter hs⟩

/-- A result that is moved at the end of the block. -/
theorem removeMOVs_one : ∃ bb', removeMOVs {2} [Insn.other () [1] [0], .mov 2 1] = some bb' ∧
    Same (({2} : Finset Register) : Set Register) [Insn.other () [1] [0], .mov 2 1] bb' := by
  refine (removeMOVs_iff {2} (by decide)).mpr ?_
  refine ⟨fun hno => absurd (by decide) hno, fun _ => ⟨0, rfl, ⟨Nat.zero_lt_one, ?_⟩, trivial⟩⟩
  rintro ⟨r, hr, heq⟩
  rw [Finset.mem_singleton.mp hr] at heq
  revert heq
  decide

/-- Register 1 is moved to 2 and 3, and 2 is read before. -/
theorem removeMOVs_common_source : ¬ ∃ bb',
    removeMOVs {2, 3} [Insn.other () [1] [0], .other () [5] [2], .mov 3 1, .mov 2 1] = some bb' ∧
      Same (({2, 3} : Finset Register) : Set Register)
        [Insn.other () [1] [0], .other () [5] [2], .mov 3 1, .mov 2 1] bb' := by
  rintro ⟨bb', hbb', hsame⟩
  have hresult : removeMOVs {2, 3} [Insn.other () [1] [0], .other () [5] [2], .mov 3 1, .mov 2 1] =
      some [Insn.other () [3] [0], .other () [5] [2], .mov 2 1] := rfl
  obtain rfl := Option.some.inj (hbb'.symm.trans hresult)
  have horigin := (hsame tracer ⟨some, ()⟩).regs 2 (by simp)
  revert horigin
  decide

end RemoveMovs

end Llvm
