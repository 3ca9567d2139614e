/-
Memory as a function on addresses, written in runs of cells.

* `write_comm` — writes to disjoint ranges commute;
* `writeAll_perm` — a list of such writes may be done in any order;
* `writeAll_of_mem` — what is written is there, if the runs that meet agree;
* `read_writeAll`, `write_writeAll` — a read or a write elsewhere does not notice them;
* `apply_writeAll` — nor does a function of the memory that touches other addresses.
-/
import Mathlib

namespace Memory

variable {β : Type*}

/-- The contents of a range of addresses. -/
structure Cells (β : Type*) where
  lo : ℤ
  size : ℕ
  contents : ℕ → β

def Cells.range (c : Cells β) : Set ℤ := Set.Ico c.lo (c.lo + c.size)

def read (m : ℤ → β) (lo : ℤ) (size : ℕ) : List β := (List.range size).map fun k : ℕ => m (lo + k)

def write (m : ℤ → β) (c : Cells β) : ℤ → β :=
  fun x => if c.lo ≤ x ∧ x < c.lo + c.size then c.contents (x - c.lo).toNat else m x

def writeAll (m : ℤ → β) (cs : List (Cells β)) : ℤ → β := cs.foldl write m

theorem write_of_notMem {m : ℤ → β} {c : Cells β} {x : ℤ} (h : x ∉ c.range) :
    write m c x = m x := if_neg h

theorem write_of_mem {m : ℤ → β} {c : Cells β} {x : ℤ} (h : x ∈ c.range) :
    write m c x = c.contents (x - c.lo).toNat := if_pos h

theorem read_congr {m m' : ℤ → β} {lo : ℤ} {size : ℕ}
    (h : ∀ x ∈ Set.Ico lo (lo + size), m x = m' x) : read m lo size = read m' lo size := by
  refine List.map_congr_left fun k hk => h _ ⟨by omega, ?_⟩
  have := List.mem_range.mp hk
  omega

theorem write_comm (m : ℤ → β) {c d : Cells β} (h : Disjoint c.range d.range) :
    write (write m c) d = write (write m d) c := by
  funext x
  by_cases hd : x ∈ d.range
  · have hc : x ∉ c.range := fun hc => Set.disjoint_left.mp h hc hd
    rw [write_of_mem hd, write_of_notMem hc, write_of_mem hd]
  · by_cases hc : x ∈ c.range
    · rw [write_of_notMem hd, write_of_mem hc, write_of_mem hc]
    · rw [write_of_notMem hd, write_of_notMem hc, write_of_notMem hc, write_of_notMem hd]

theorem writeAll_append (m : ℤ → β) (cs ds : List (Cells β)) :
    writeAll m (cs ++ ds) = writeAll (writeAll m cs) ds :=
  List.foldl_append ..

theorem writeAll_of_notMem {m : ℤ → β} {cs : List (Cells β)} {x : ℤ}
    (h : ∀ c ∈ cs, x ∉ c.range) : writeAll m cs x = m x := by
  induction cs generalizing m with
  | nil => rfl
  | cons c cs ih =>
    have hrest := ih (m := write m c) fun d hd => h d (List.mem_cons_of_mem _ hd)
    exact hrest.trans (write_of_notMem (h c List.mem_cons_self))

/-- What is written to a place, if the runs that reach it agree. -/
theorem writeAll_of_mem {m : ℤ → β} {cs : List (Cells β)} {x : ℤ} {b : β}
    (h : ∀ c ∈ cs, x ∈ c.range → c.contents (x - c.lo).toNat = b)
    (hx : ∃ c ∈ cs, x ∈ c.range) : writeAll m cs x = b := by
  induction cs generalizing m with
  | nil =>
    obtain ⟨c, hc, -⟩ := hx
    exact absurd hc List.not_mem_nil
  | cons c cs ih =>
    show writeAll (write m c) cs x = b
    by_cases hrest : ∃ d ∈ cs, x ∈ d.range
    · exact ih (fun d hd => h d (List.mem_cons_of_mem _ hd)) hrest
    · -- `c` is the last to write it
      obtain ⟨d, hd, hxd⟩ := hx
      obtain rfl : d = c := (List.mem_cons.mp hd).resolve_right fun hd => hrest ⟨d, hd, hxd⟩
      rw [writeAll_of_notMem fun e he hxe => hrest ⟨e, he, hxe⟩, write_of_mem hxd]
      exact h d List.mem_cons_self hxd

theorem read_writeAll {m : ℤ → β} {cs : List (Cells β)} {lo : ℤ} {size : ℕ}
    (h : ∀ c ∈ cs, Disjoint c.range (Set.Ico lo (lo + size))) :
    read (writeAll m cs) lo size = read m lo size :=
  read_congr fun _ hx => writeAll_of_notMem fun c hc hxc => Set.disjoint_left.mp (h c hc) hxc hx

theorem write_writeAll {m : ℤ → β} {cs : List (Cells β)} {d : Cells β}
    (h : ∀ c ∈ cs, Disjoint c.range d.range) :
    write (writeAll m cs) d = writeAll (write m d) cs := by
  induction cs generalizing m with
  | nil => rfl
  | cons c cs ih =>
    have hrest := ih (m := write m c) fun e he => h e (List.mem_cons_of_mem _ he)
    show write (writeAll (write m c) cs) d = writeAll (write (write m d) c) cs
    rw [hrest, write_comm m (h c List.mem_cons_self)]

theorem writeAll_comm {m : ℤ → β} {cs ds : List (Cells β)}
    (h : ∀ c ∈ cs, ∀ d ∈ ds, Disjoint c.range d.range) :
    writeAll (writeAll m cs) ds = writeAll (writeAll m ds) cs := by
  induction ds generalizing m with
  | nil => rfl
  | cons d ds ih =>
    have hd : ∀ c ∈ cs, Disjoint c.range d.range := fun c hc => h c hc d List.mem_cons_self
    have hds := ih (m := write m d) fun c hc e he => h c hc e (List.mem_cons_of_mem _ he)
    show writeAll (write (writeAll m cs) d) ds = writeAll (writeAll (write m d) ds) cs
    rw [write_writeAll hd, hds]

/-- Writes to disjoint ranges may be done in any order. -/
theorem writeAll_perm (m : ℤ → β) {cs ds : List (Cells β)}
    (h : cs.Pairwise fun c d => Disjoint c.range d.range) (hperm : cs.Perm ds) :
    writeAll m cs = writeAll m ds := by
  refine hperm.foldl_eq' ?_ m
  have hone : cs.Pairwise fun c d => ∀ m : ℤ → β, write (write m c) d = write (write m d) c :=
    h.imp fun hcd m => write_comm m hcd
  have hflip : cs.Pairwise
      (flip fun c d => ∀ m : ℤ → β, write (write m c) d = write (write m d) c) :=
    hone.imp fun hcd m => (hcd m).symm
  intro c hc d hd
  exact hone.forall_of_forall_of_flip (fun _ _ _ => rfl) hflip hc hd

/-! ### Functions of the memory -/

section

variable {γ : Type*}

/-- The addresses whose contents a function may change. -/
def changes (f : (ℤ → β) → γ × (ℤ → β)) : Set ℤ := {x | ∃ m, (f m).2 x ≠ m x}

/-- The addresses on whose contents its result depends, or what it leaves elsewhere. -/
def depends (f : (ℤ → β) → γ × (ℤ → β)) : Set ℤ :=
  {x | ∃ m b, (f (Function.update m x b)).1 ≠ (f m).1 ∨
    ∃ y, y ≠ x ∧ (f (Function.update m x b)).2 y ≠ (f m).2 y}

variable {f : (ℤ → β) → γ × (ℤ → β)}

theorem apply_update {x : ℤ} (hd : x ∉ depends f) (hc : x ∉ changes f) (m : ℤ → β) (b : β) :
    f (Function.update m x b) = ((f m).1, Function.update (f m).2 x b) := by
  have hsame := not_or.mp fun h => hd ⟨m, b, h⟩
  refine Prod.ext (not_not.mp hsame.1) (funext fun y => ?_)
  by_cases hy : y = x
  · subst hy
    have hkept := not_not.mp fun h => hc ⟨Function.update m y b, h⟩
    simpa using hkept
  · show _ = Function.update (f m).2 x b y
    rw [Function.update_of_ne hy]
    exact not_not.mp fun h => hsame.2 ⟨y, hy, h⟩

/-- Cell by cell. -/
theorem write_succ (m : ℤ → β) (lo : ℤ) (size : ℕ) (contents : ℕ → β) :
    write m ⟨lo, size + 1, contents⟩ =
      Function.update (write m ⟨lo, size, contents⟩) (lo + size) (contents size) := by
  funext x
  by_cases hx : x = lo + size
  · subst hx
    simp [write]
  · rw [Function.update_of_ne hx, write, write]
    refine if_congr ?_ rfl rfl
    simp only [Nat.cast_add, Nat.cast_one]
    omega

theorem apply_write {c : Cells β} (hd : Disjoint (depends f) c.range)
    (hc : Disjoint (changes f) c.range) (m : ℤ → β) :
    f (write m c) = ((f m).1, write (f m).2 c) := by
  obtain ⟨lo, size, contents⟩ := c
  induction size with
  | zero =>
    have hnone (m : ℤ → β) : write m ⟨lo, 0, contents⟩ = m :=
      funext fun x => write_of_notMem (by simp [Cells.range])
    rw [hnone, hnone]
  | succ size ih =>
    have hsub : Cells.range ⟨lo, size, contents⟩ ⊆ Cells.range ⟨lo, size + 1, contents⟩ :=
      Set.Ico_subset_Ico_right (by push_cast; omega)
    have hlast : lo + size ∈ Cells.range ⟨lo, size + 1, contents⟩ := by
      simp only [Cells.range, Set.mem_Ico, Nat.cast_add, Nat.cast_one]
      omega
    rw [write_succ, write_succ, apply_update (Set.disjoint_right.mp hd hlast)
      (Set.disjoint_right.mp hc hlast), ih (hd.mono_right hsub) (hc.mono_right hsub)]

/-- Writes to addresses that the function does not touch may be done after it. -/
theorem apply_writeAll {cs : List (Cells β)} (hd : ∀ c ∈ cs, Disjoint (depends f) c.range)
    (hc : ∀ c ∈ cs, Disjoint (changes f) c.range) (m : ℤ → β) :
    f (writeAll m cs) = ((f m).1, writeAll (f m).2 cs) := by
  induction cs generalizing m with
  | nil => rfl
  | cons c cs ih =>
    have hfirst := apply_write (hd c List.mem_cons_self) (hc c List.mem_cons_self) m
    have hrest := ih (fun d h => hd d (List.mem_cons_of_mem _ h))
      (fun d h => hc d (List.mem_cons_of_mem _ h)) (write m c)
    rw [hfirst] at hrest
    exact hrest

end

end Memory
