/-
Folds of local updates.

A store is a function `X → V`.  The update of each item of a list depends on its own footprint
and on a property `I` of the store that all updates keep, and it changes nothing outside the
footprint.

* `foldl_footprint` — if the footprints are disjoint, each item is updated as if it were alone,
  and the rest of the store stays as it was.
* `foldl_writes` — if the new values depend on the place only, the footprints may even meet.
-/
import Mathlib

namespace Footprint

variable {X V β : Type*} {f : (X → V) → β → (X → V)} {s0 : X → V} {I : (X → V) → Prop}
  {footprint : β → Set X}

/-- The store is still the old one on a footprint. -/
def Fresh (s0 : X → V) (footprint : β → Set X) (s : X → V) (b : β) : Prop :=
  ∀ x ∈ footprint b, s x = s0 x

/-- The updates are local. -/
structure Local (f : (X → V) → β → (X → V)) (s0 : X → V) (I : (X → V) → Prop)
    (footprint : β → Set X) (l : List β) : Prop where
  frame : ∀ s, ∀ b ∈ l, I s → Fresh s0 footprint s b → ∀ x ∉ footprint b, f s b x = s x
  value : ∀ s, ∀ b ∈ l, I s → Fresh s0 footprint s b → ∀ x ∈ footprint b, f s b x = f s0 b x
  keep : ∀ s, ∀ b ∈ l, I s → Fresh s0 footprint s b → I (f s b)

theorem Local.tail {b : β} {l : List β} (h : Local f s0 I footprint (b :: l)) :
    Local f s0 I footprint l :=
  ⟨fun s c hc => h.frame s c (List.mem_cons_of_mem _ hc),
    fun s c hc => h.value s c (List.mem_cons_of_mem _ hc),
    fun s c hc => h.keep s c (List.mem_cons_of_mem _ hc)⟩

theorem foldl_footprint {l : List β} (h : Local f s0 I footprint l)
    (hdis : l.Pairwise fun b c => Disjoint (footprint b) (footprint c)) {s : X → V} (hI : I s)
    (hfresh : ∀ b ∈ l, Fresh s0 footprint s b) :
    (∀ b ∈ l, ∀ x ∈ footprint b, l.foldl f s x = f s0 b x) ∧
      (∀ x, (∀ b ∈ l, x ∉ footprint b) → l.foldl f s x = s x) ∧ I (l.foldl f s) := by
  induction l generalizing s with
  | nil => exact ⟨by simp, fun _ _ => rfl, hI⟩
  | cons b l ih =>
    obtain ⟨hb, hl⟩ := List.pairwise_cons.mp hdis
    have hbfresh := hfresh b List.mem_cons_self
    have hframe := h.frame s b List.mem_cons_self hI hbfresh
    -- the footprints of the rest are still fresh
    have hrest : ∀ c ∈ l, Fresh s0 footprint (f s b) c := by
      intro c hc x hx
      rw [hframe x fun hxb => Set.disjoint_left.mp (hb c hc) hxb hx]
      exact hfresh c (List.mem_cons_of_mem _ hc) x hx
    obtain ⟨hval, hout, hI'⟩ := ih h.tail hl (h.keep s b List.mem_cons_self hI hbfresh) hrest
    refine ⟨?_, ?_, hI'⟩
    · intro c hc x hx
      obtain rfl | hc := List.mem_cons.mp hc
      · show l.foldl f (f s c) x = _
        rw [hout x fun d hd hxd => Set.disjoint_left.mp (hb d hd) hx hxd]
        exact h.value s c List.mem_cons_self hI hbfresh x hx
      · exact hval c hc x hx
    · intro x hx
      show l.foldl f (f s b) x = _
      rw [hout x fun c hc => hx c (List.mem_cons_of_mem _ hc)]
      exact hframe x (hx b List.mem_cons_self)

/-- Updates that write the same value to a place, whoever writes it. -/
theorem foldl_writes [∀ b, DecidablePred (· ∈ footprint b)] {v : X → V} {l : List β}
    (h : ∀ s, I s → ∀ b ∈ l, I (f s b) ∧ ∀ x, f s b x = if x ∈ footprint b then v x else s x)
    {s : X → V} (hs : I s) :
    (∀ x, (∃ b ∈ l, x ∈ footprint b) → l.foldl f s x = v x) ∧
      ∀ x, (∀ b ∈ l, x ∉ footprint b) → l.foldl f s x = s x := by
  induction l generalizing s with
  | nil => exact ⟨by simp, fun _ _ => rfl⟩
  | cons b l ih =>
    obtain ⟨hI, hval⟩ := h s hs b List.mem_cons_self
    obtain ⟨hin, hout⟩ := ih (fun s hs c hc => h s hs c (List.mem_cons_of_mem _ hc)) hI
    constructor
    · intro x hx
      show l.foldl f (f s b) x = v x
      by_cases hrest : ∃ c ∈ l, x ∈ footprint c
      · exact hin x hrest
      · -- `b` is the last to write it
        obtain ⟨c, hc, hxc⟩ := hx
        obtain rfl : c = b := (List.mem_cons.mp hc).resolve_right fun hc => hrest ⟨c, hc, hxc⟩
        rw [hout x fun d hd hxd => hrest ⟨d, hd, hxd⟩, hval, if_pos hxc]
    · intro x hx
      show l.foldl f (f s b) x = s x
      rw [hout x fun c hc => hx c (List.mem_cons_of_mem _ hc), hval,
        if_neg (hx b List.mem_cons_self)]

end Footprint
