/-
A worklist that is worked off from the front: the successors of an item are appended behind, however
often they have been there before.

It becomes empty iff the items have no infinite chain of successors; where only finitely many items
are successors, iff none of the items that are reached is reached from itself.

* `exists_empty_iff` — when the list becomes empty;
* `ends_iff_acyclic` — chains and cycles.
-/
import Mathlib

namespace Worklist

variable {α : Type*} (succ : α → List α)

def Edge (a b : α) : Prop := b ∈ succ a

/-- No infinite chain of successors starts here. -/
def Ends (a : α) : Prop := Acc (fun b a => Edge succ a b) a

/-- Work off the first item. -/
def advance : List α → List α
  | [] => []
  | a :: queue => queue ++ succ a

/-- No chain of `n` successors starts here. -/
def Depth : ℕ → α → Prop
  | 0, _ => False
  | n + 1, a => ∀ b ∈ succ a, Depth n b

variable {succ}

theorem Depth.mono {m n : ℕ} {a : α} (h : Depth succ m a) (hmn : m ≤ n) : Depth succ n a := by
  induction m generalizing n a with
  | zero => exact absurd h id
  | succ m ih =>
    obtain ⟨k, rfl⟩ := Nat.exists_eq_add_of_le hmn
    rw [Nat.add_right_comm]
    exact fun b hb => ih (h b hb) (Nat.le_add_right m k)

theorem exists_depth_list {queue : List α} (h : ∀ a ∈ queue, ∃ n, Depth succ n a) :
    ∃ n, ∀ a ∈ queue, Depth succ n a := by
  induction queue with
  | nil => exact ⟨0, fun a ha => absurd ha List.not_mem_nil⟩
  | cons a queue ih =>
    obtain ⟨m, hm⟩ := h a List.mem_cons_self
    obtain ⟨n, hn⟩ := ih fun b hb => h b (List.mem_cons_of_mem a hb)
    refine ⟨max m n, fun b hb => ?_⟩
    rcases List.mem_cons.mp hb with rfl | hb
    · exact hm.mono (le_max_left m n)
    · exact (hn b hb).mono (le_max_right m n)

/-- Each item has finitely many successors. -/
theorem Ends.exists_depth {a : α} (h : Ends succ a) : ∃ n, Depth succ n a := by
  induction h with
  | intro a _ ih =>
    obtain ⟨n, hn⟩ := exists_depth_list fun b (hb : b ∈ succ a) => ih b hb
    exact ⟨n + 1, hn⟩

theorem iterate_round (queue rest : List α) :
    (advance succ)^[queue.length] (queue ++ rest) = rest ++ queue.flatMap succ := by
  induction queue generalizing rest with
  | nil => exact (List.append_nil rest).symm
  | cons a queue ih =>
    have hstep : advance succ (a :: queue ++ rest) = queue ++ (rest ++ succ a) :=
      List.append_assoc queue rest (succ a)
    rw [List.length_cons, Function.iterate_succ_apply, hstep, ih, List.flatMap_cons,
      List.append_assoc]

/-- One round goes one step down all the chains. -/
theorem exists_empty_of_depth {n : ℕ} {queue : List α} (h : ∀ a ∈ queue, Depth succ n a) :
    ∃ k, (advance succ)^[k] queue = [] := by
  induction n generalizing queue with
  | zero =>
    cases queue with
    | nil => exact ⟨0, rfl⟩
    | cons a queue => exact absurd (h a List.mem_cons_self) id
  | succ n ih =>
    have hnext : ∀ b ∈ queue.flatMap succ, Depth succ n b := fun b hb => by
      obtain ⟨a, ha, hb⟩ := List.mem_flatMap.mp hb
      exact h a ha b hb
    obtain ⟨k, hk⟩ := ih hnext
    refine ⟨k + queue.length, ?_⟩
    have hround : (advance succ)^[queue.length] queue = queue.flatMap succ := by
      simpa only [List.append_nil, List.nil_append] using iterate_round queue []
    rw [Function.iterate_add_apply, hround, hk]

theorem exists_empty_iff {queue : List α} :
    (∃ k, (advance succ)^[k] queue = []) ↔ ∀ a ∈ queue, Ends succ a := by
  constructor
  · rintro ⟨k, hk⟩
    induction k generalizing queue with
    | zero =>
      obtain rfl : queue = [] := hk
      exact fun a ha => absurd ha List.not_mem_nil
    | succ k ih =>
      cases queue with
      | nil => exact fun a ha => absurd ha List.not_mem_nil
      | cons a queue =>
        have hall : ∀ b ∈ queue ++ succ a, Ends succ b := ih hk
        intro b hb
        rcases List.mem_cons.mp hb with rfl | hb
        · exact Acc.intro b fun c hc => hall c (List.mem_append_right queue hc)
        · exact hall b (List.mem_append_left _ hb)
  · intro h
    obtain ⟨n, hn⟩ := exists_depth_list fun a ha => (h a ha).exists_depth
    exact exists_empty_of_depth hn

/-! ### Cycles -/

/-- An item on a cycle has an infinite chain. -/
theorem Ends.not_cycle {a : α} (h : Ends succ a) : ¬ Relation.TransGen (Edge succ) a a := by
  have hacc : Acc (Relation.TransGen fun b a => Edge succ a b) a := Acc.transGen h
  intro hcycle
  have hswap := Relation.transGen_swap.mpr hcycle
  clear hcycle h
  induction hacc with
  | intro a _ ih => exact ih a hswap hswap

theorem Ends.reached {a b : α} (h : Ends succ a) (hab : Relation.ReflTransGen (Edge succ) a b) :
    Ends succ b := by
  induction hab with
  | refl => exact h
  | tail _ hbc ih => exact Acc.inv ih hbc

/-- Chains and cycles, where finitely many items are successors. -/
theorem ends_iff_acyclic (hfin : {b | ∃ a, Edge succ a b}.Finite) {a : α} :
    Ends succ a ↔ ∀ b, Relation.ReflTransGen (Edge succ) a b →
      ¬ Relation.TransGen (Edge succ) b b := by
  constructor
  · exact fun h b hab => (h.reached hab).not_cycle
  · intro h
    have hreached : {b | Relation.ReflTransGen (Edge succ) a b}.Finite := by
      refine (hfin.insert a).subset fun b hab => ?_
      rcases Relation.ReflTransGen.cases_tail hab with heq | ⟨c, -, hcb⟩
      · exact .inl heq
      · exact .inr ⟨c, hcb⟩
    have : Finite {b // Relation.ReflTransGen (Edge succ) a b} := hreached
    let R (y x : {b // Relation.ReflTransGen (Edge succ) a b}) : Prop :=
      Relation.TransGen (Edge succ) x.1 y.1
    have htrans : IsTrans _ R := ⟨fun _ _ _ hxy hyz => hyz.trans hxy⟩
    have hirrefl : Std.Irrefl R := ⟨fun x => h x.1 x.2⟩
    have hwf : WellFounded R := Finite.wellFounded_of_trans_of_irrefl R
    have hall : ∀ x : {b // Relation.ReflTransGen (Edge succ) a b}, Ends succ x.1 := fun x => by
      induction hwf.apply x with
      | intro x _ ih =>
        exact Acc.intro x.1 fun y hxy => ih ⟨y, x.2.tail hxy⟩ (.single hxy)
    exact hall ⟨a, .refl⟩

end Worklist
