/-
Depth-first search with an explicit stack.

The search keeps a stack, the set of nodes it has seen and the list of nodes it is
done with.  In each step the node on top of the stack either puts its first unseen
successor on the stack or, when there is none, moves to the end of the list.

* `postorder_nodup`, `mem_postorder` — the search lists the nodes that the start
  reaches, each once;
* `getLast?_postorder` — the start comes last;
* `postorder_edge` — a successor comes before its predecessor, unless the two are on
  a cycle.
-/
import Mathlib

namespace DepthFirst

open Relation (ReflTransGen)

variable {α : Type*} [DecidableEq α] (succ : α → List α)

/-- The stack, the nodes seen and the nodes done. -/
structure State (α : Type*) where
  visitStack : List α
  visited : Finset α
  sorted : List α

def start (a : α) : State α := ⟨[a], {a}, []⟩

/-- One turn of the loop; the top of the stack is the head of the list. -/
def step (s : State α) : State α :=
  match s.visitStack with
  | [] => s
  | top :: stack =>
    match (succ top).find? fun c => c ∉ s.visited with
    | some c => ⟨c :: top :: stack, insert c s.visited, s.sorted⟩
    | none => ⟨stack, s.visited, s.sorted ++ [top]⟩

/-- At most `n` turns of the loop. -/
def run : ℕ → State α → State α
  | 0, s => s
  | n + 1, s => run n (step succ s)

/-- The nodes in the order in which the search is done with them. -/
def postorder [Fintype α] (a : α) : List α :=
  (run succ (2 * Fintype.card α) (start a)).sorted

/-- There is an edge from `x` to `y`. -/
def Edge (x y : α) : Prop := y ∈ succ x

/-! ### One step -/

/-- Everything a step can do. -/
theorem step_cases (s : State α) :
    (s.visitStack = [] ∧ step succ s = s) ∨
    (∃ top stack c, s.visitStack = top :: stack ∧ c ∈ succ top ∧ c ∉ s.visited ∧
      step succ s = ⟨c :: top :: stack, insert c s.visited, s.sorted⟩) ∨
    (∃ top stack, s.visitStack = top :: stack ∧ (∀ c ∈ succ top, c ∈ s.visited) ∧
      step succ s = ⟨stack, s.visited, s.sorted ++ [top]⟩) := by
  rcases hstack : s.visitStack with _ | ⟨top, stack⟩
  · refine .inl ⟨rfl, ?_⟩
    simp only [step, hstack]
  · rcases hfind : (succ top).find? fun c => c ∉ s.visited with _ | c
    · refine .inr (.inr ⟨top, stack, rfl, ?_, ?_⟩)
      · intro c hc
        simpa using List.find?_eq_none.mp hfind c hc
      · simp only [step, hstack, hfind]
    · refine .inr (.inl ⟨top, stack, c, rfl, List.mem_of_find?_eq_some hfind, ?_, ?_⟩)
      · simpa using List.find?_some hfind
      · simp only [step, hstack, hfind]

/-- What holds between any two turns of a search from `a`. -/
structure Inv (a : α) (s : State α) : Prop where
  nodup : (s.visitStack ++ s.sorted).Nodup
  mem_visited : ∀ x, x ∈ s.visited ↔ x ∈ s.visitStack ∨ x ∈ s.sorted
  reached : ∀ x ∈ s.visited, ReflTransGen (Edge succ) a x
  start_mem : a ∈ s.visited
  /-- the stack is a path -/
  path : s.visitStack.IsChain fun y x => Edge succ x y
  /-- the start is at the bottom of the stack until the search is over -/
  last : s.visitStack.getLast? = some a ∨ s.visitStack = [] ∧ s.sorted.getLast? = some a
  closed : ∀ u ∈ s.sorted, ∀ v ∈ succ u, v ∈ s.visited
  /-- a successor of a finished node was finished before it or was still on the stack -/
  done : ∀ pre u post, s.sorted = pre ++ u :: post →
    ∀ v ∈ succ u, v ∈ pre ∨ ReflTransGen (Edge succ) v u

variable {succ}

omit [DecidableEq α] in
theorem start_inv (a : α) : Inv succ a (start a) where
  nodup := by simp [start]
  mem_visited := by simp [start]
  reached x hx := by
    rw [Finset.mem_singleton.mp hx]
  start_mem := by simp [start]
  path := by simp [start]
  last := by simp [start]
  closed := by simp [start]
  done pre u post h := by simp [start] at h

omit [DecidableEq α] in
/-- From each node of the stack the top can be reached. -/
theorem reaches_top {stack : List α} {top : α}
    (h : (top :: stack).IsChain fun y x => Edge succ x y) {x : α} (hx : x ∈ top :: stack) :
    ReflTransGen (Edge succ) x top := by
  induction stack generalizing top with
  | nil =>
    rw [List.mem_singleton.mp hx]
  | cons y stack ih =>
    obtain ⟨hy, h⟩ := List.isChain_cons_cons.mp h
    rcases List.mem_cons.mp hx with rfl | hx
    · exact .refl
    · exact (ih h hx).tail hy

theorem Inv.push {a : α} {s : State α} (hs : Inv succ a s) {top c : α} {stack : List α}
    (hstack : s.visitStack = top :: stack) (hc : c ∈ succ top) (hnew : c ∉ s.visited) :
    Inv succ a ⟨c :: top :: stack, insert c s.visited, s.sorted⟩ := by
  have hmem := hs.mem_visited
  rw [hstack] at hmem
  constructor
  · have hnodup := hs.nodup
    rw [hstack] at hnodup
    refine List.nodup_cons.mpr ⟨fun h => hnew ?_, hnodup⟩
    exact (hmem c).mpr (List.mem_append.mp h)
  · intro x
    rw [Finset.mem_insert, hmem, List.mem_cons (a := x) (b := c), or_assoc]
  · intro x hx
    rcases Finset.mem_insert.mp hx with rfl | hx
    · exact (hs.reached top ((hmem top).mpr (by simp))).tail hc
    · exact hs.reached x hx
  · exact Finset.mem_insert_of_mem hs.start_mem
  · have hpath := hs.path
    rw [hstack] at hpath
    exact List.isChain_cons_cons.mpr ⟨hc, hpath⟩
  · have hlast := hs.last
    rw [hstack] at hlast
    exact .inl (by simpa using hlast)
  · intro u hu v hv
    exact Finset.mem_insert_of_mem (hs.closed u hu v hv)
  · exact hs.done

omit [DecidableEq α] in
theorem Inv.pop {a : α} {s : State α} (hs : Inv succ a s) {top : α} {stack : List α}
    (hstack : s.visitStack = top :: stack) (hall : ∀ c ∈ succ top, c ∈ s.visited) :
    Inv succ a ⟨stack, s.visited, s.sorted ++ [top]⟩ := by
  have hmem := hs.mem_visited
  rw [hstack] at hmem
  have hpath := hs.path
  rw [hstack] at hpath
  constructor
  · have hnodup := hs.nodup
    rw [hstack] at hnodup
    refine (List.Perm.nodup_iff ?_).mp hnodup
    simpa using (List.perm_append_singleton top (stack ++ s.sorted)).symm
  · intro x
    rw [hmem, List.mem_cons, List.mem_append, List.mem_singleton]
    tauto
  · exact hs.reached
  · exact hs.start_mem
  · exact hpath.tail
  · have hlast := hs.last
    rw [hstack] at hlast
    rcases stack with _ | ⟨y, stack⟩
    · exact .inr ⟨rfl, by simpa using hlast⟩
    · exact .inl (by simpa using hlast)
  · intro u hu v hv
    rcases List.mem_append.mp hu with hu | hu
    · exact hs.closed u hu v hv
    · rw [List.mem_singleton.mp hu] at hv
      exact hall v hv
  · intro pre u post heq v hv
    rcases List.eq_nil_or_concat post with rfl | ⟨post, q, rfl⟩
    · -- `u` is the node that is done now
      obtain ⟨rfl, hu⟩ := List.append_inj' heq rfl
      obtain rfl := List.singleton_inj.mp hu
      rcases (hmem v).mp (hall v hv) with h | h
      · exact .inr (reaches_top hpath h)
      · exact .inl h
    · have heq' : s.sorted ++ [top] = (pre ++ u :: post) ++ [q] := by
        simpa using heq
      exact hs.done pre u post (List.append_inj' heq' rfl).1 v hv

theorem step_inv {a : α} {s : State α} (hs : Inv succ a s) : Inv succ a (step succ s) := by
  rcases step_cases succ s with ⟨-, h⟩ | ⟨top, stack, c, hstack, hc, hnew, h⟩ |
    ⟨top, stack, hstack, hall, h⟩
  · rw [h]
    exact hs
  · rw [h]
    exact hs.push hstack hc hnew
  · rw [h]
    exact hs.pop hstack hall

theorem run_inv {a : α} (n : ℕ) {s : State α} (hs : Inv succ a s) : Inv succ a (run succ n s) := by
  induction n generalizing s with
  | zero => exact hs
  | succ n ih => exact ih (step_inv hs)

/-! ### The end of the search -/

theorem run_nil (n : ℕ) {s : State α} (h : s.visitStack = []) : run succ n s = s := by
  induction n with
  | zero => rfl
  | succ n ih =>
    have hstep : step succ s = s := by simp only [step, h]
    rw [run, hstep, ih]

section Fintype

variable [Fintype α]

/-- Two turns for each node that was not seen, one for each node on the stack. -/
def State.todo (s : State α) : ℕ := 2 * s.visitedᶜ.card + s.visitStack.length

variable (succ) in
theorem step_todo (s : State α) (h : s.visitStack ≠ []) :
    (step succ s).todo + 1 ≤ s.todo := by
  rcases step_cases succ s with ⟨hnil, -⟩ | ⟨top, stack, c, hstack, -, hnew, hstep⟩ |
    ⟨top, stack, hstack, -, hstep⟩
  · exact absurd hnil h
  · have hcard : (insert c s.visited)ᶜ.card + 1 = s.visitedᶜ.card := by
      rw [Finset.compl_insert]
      exact Finset.card_erase_add_one (Finset.mem_compl.mpr hnew)
    rw [hstep, State.todo, State.todo, hstack]
    simp only [List.length_cons]
    omega
  · rw [hstep, State.todo, State.todo, hstack]
    simp only [List.length_cons]
    omega

theorem run_todo (n : ℕ) {s : State α} (h : s.todo ≤ n) : (run succ n s).visitStack = [] := by
  induction n generalizing s with
  | zero =>
    have hlen : s.visitStack.length = 0 := by
      rw [State.todo] at h
      omega
    exact List.length_eq_zero_iff.mp hlen
  | succ n ih =>
    by_cases hnil : s.visitStack = []
    · rw [run_nil _ hnil, hnil]
    · have := step_todo succ s hnil
      exact ih (by omega)

/-- `2 n` turns are enough. -/
theorem run_start (a : α) :
    (run succ (2 * Fintype.card α) (start a)).visitStack = [] := by
  refine run_todo _ ?_
  have hpos : 0 < Fintype.card α := Fintype.card_pos_iff.mpr ⟨a⟩
  simp only [State.todo, start, Finset.card_compl, Finset.card_singleton, List.length_singleton]
  omega

variable (succ) in
theorem postorder_inv (a : α) : Inv succ a (run succ (2 * Fintype.card α) (start a)) :=
  run_inv _ (start_inv a)

theorem postorder_nodup (a : α) : (postorder succ a).Nodup := by
  have h := (postorder_inv succ a).nodup
  rw [run_start, List.nil_append] at h
  exact h

theorem postorder_edge {a u v : α} {pre post : List α}
    (h : postorder succ a = pre ++ u :: post) (hv : v ∈ succ u) :
    v ∈ pre ∨ ReflTransGen (Edge succ) v u :=
  (postorder_inv succ a).done pre u post h v hv

theorem mem_postorder {a x : α} :
    x ∈ postorder succ a ↔ ReflTransGen (Edge succ) a x := by
  have hinv := postorder_inv succ a
  have hmem : ∀ y, y ∈ (run succ (2 * Fintype.card α) (start a)).visited ↔
      y ∈ postorder succ a := by
    intro y
    rw [hinv.mem_visited, run_start]
    simp [postorder]
  constructor
  · intro hx
    exact hinv.reached x ((hmem x).mpr hx)
  · intro hx
    induction hx with
    | refl => exact (hmem a).mp hinv.start_mem
    | @tail u v _ huv hu => exact (hmem v).mp (hinv.closed u hu v huv)

theorem getLast?_postorder (a : α) : (postorder succ a).getLast? = some a := by
  rcases (postorder_inv succ a).last with h | ⟨-, h⟩
  · rw [run_start] at h
    cases h
  · exact h

end Fintype

end DepthFirst
