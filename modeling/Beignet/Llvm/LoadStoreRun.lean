/-
The meaning of a block of loads, stores, calls and pure instructions.

A value is an integer, kept in memory as little-endian bytes.  `V` is the valuation of a
run: what every SSA value is in the end, and hence whenever it is used.  `Consistent V`
says that every instruction of a block uses and defines the values of `V`; it follows from
static single assignment, and it is what the merges keep.

* `SSA.consistent` — a block in SSA form is consistent with its final values;
* `exec_mem_of_notMem`, `exec_overlay` — an instruction does not notice, and does not
  change, bytes that it does not touch.
-/
import Beignet.Llvm.LoadStore

open Memory

namespace Llvm.LoadStore

/-! ### The meaning of a block -/

/-- Values and memory. -/
@[ext]
structure State where
  env : Id → ℤ
  mem : Mem

/-- Byte `k` of a value. -/
def toBytes (v : ℤ) (k : ℕ) : Byte := BitVec.ofInt 8 (v / 256 ^ k)

def ofBytes (bs : List Byte) : ℤ := bs.foldr (fun b v => b.toNat + 256 * v) 0

/-- The value of a type at an address. -/
def loadAt (m : Mem) (lo : ℤ) (ty : Ty) : ℤ := ofBytes (read m lo ty.storeSize)

/-- A value of a type as cells at an address. -/
def cells (lo : ℤ) (ty : Ty) (v : ℤ) : Cells Byte := ⟨lo, ty.storeSize, toBytes v⟩

/-- The address of element `k` of a vector. -/
def elementAt (base : ℤ) (a : Access) (offset : ℤ) (k : ℕ) : ℤ :=
  base + offset + k * a.ty.storeSize

/-- The values of the elements given to their names. -/
def setAll (value : ℕ → ℤ) (env : Id → ℤ) : ℕ → List Id → Id → ℤ
  | _, [] => env
  | k, d :: ds => setAll value (Function.update env d (value k)) (k + 1) ds

/-- One instruction. -/
def exec : Insn → State → State
  | .load d a, s => { s with env := Function.update s.env d (loadAt s.mem (s.env a.ptr) a.ty) }
  | .store v a, s => { s with mem := write s.mem (cells (s.env a.ptr) a.ty (s.env v)) }
  | .call d args f, s =>
    ⟨Function.update s.env d (f (args.map s.env) s.mem).1, (f (args.map s.env) s.mem).2⟩
  | .pure d args f, s => { s with env := Function.update s.env d (f (args.map s.env)) }
  | .vecLoad ds a offset, s =>
    { s with env :=
        setAll (fun k => loadAt s.mem (elementAt (s.env a.ptr) a offset k) a.ty) s.env 0 ds }
  | .vecStore vs a offset _, s =>
    { s with mem := writeAll s.mem (vs.zipIdx.map fun p =>
        cells (elementAt (s.env a.ptr) a offset p.2) a.ty (s.env p.1)) }

/-- A list of instructions. -/
def run (l : List Insn) (s : State) : State := l.foldl (fun s x => exec x s) s

theorem run_append (l l' : List Insn) (s : State) : run (l ++ l') s = run l' (run l s) :=
  List.foldl_append ..

def Insn.uses : Insn → List Id
  | .load _ a => [a.ptr]
  | .store v a => [v, a.ptr]
  | .call _ args _ => args
  | .pure _ args _ => args
  | .vecLoad _ a _ => [a.ptr]
  | .vecStore vs a _ _ => a.ptr :: vs

def Insn.defs : Insn → List Id
  | .load d _ => [d]
  | .store _ _ => []
  | .call d _ _ => [d]
  | .pure d _ _ => [d]
  | .vecLoad ds _ _ => ds
  | .vecStore _ _ _ _ => []

/-- Static single assignment in one block. -/
def SSA : List Insn → Prop
  | [] => True
  | x :: l => (∀ u ∈ x.uses, ∀ y ∈ x :: l, u ∉ y.defs) ∧ (∀ d ∈ x.defs, ∀ y ∈ l, d ∉ y.defs) ∧ SSA l

theorem setAll_of_notMem {value : ℕ → ℤ} {ds : List Id} {u : Id} (h : u ∉ ds) :
    ∀ env k, setAll value env k ds u = env u := by
  induction ds with
  | nil => exact fun _ _ => rfl
  | cons d ds ih =>
    intro env k
    rw [List.mem_cons, not_or] at h
    rw [setAll, ih h.2, Function.update_of_ne h.1]

/-- Where every element has the value that its name has in `V`, the names get it. -/
theorem setAll_of_mem {value : ℕ → ℤ} {V : Id → ℤ} {ds : List Id} {u : Id} (h : u ∈ ds) :
    ∀ env k, (∀ n d, ds[n]? = some d → value (k + n) = V d) → setAll value env k ds u = V u := by
  induction ds with
  | nil => cases h
  | cons d ds ih =>
    intro env k hvalue
    have htail : ∀ n e, ds[n]? = some e → value (k + 1 + n) = V e := by
      intro n e he
      rw [Nat.add_assoc, Nat.add_comm 1]
      exact hvalue (n + 1) e he
    rw [setAll]
    by_cases hmem : u ∈ ds
    · exact ih hmem _ _ htail
    · obtain rfl : u = d := by simpa [hmem] using h
      rw [setAll_of_notMem hmem, Function.update_self]
      exact hvalue 0 u rfl

theorem setAll_congr {value value' : ℕ → ℤ} {ds : List Id} :
    ∀ env k, (∀ n < ds.length, value (k + n) = value' (k + n)) →
      setAll value env k ds = setAll value' env k ds := by
  induction ds with
  | nil => exact fun _ _ _ => rfl
  | cons d ds ih =>
    intro env k h
    have hhead : value k = value' k := h 0 (by simp)
    rw [setAll, setAll, hhead]
    refine ih _ _ fun n hn => ?_
    rw [Nat.add_assoc, Nat.add_comm 1]
    exact h (n + 1) (by simpa using hn)

theorem exec_env_of_notMem {x : Insn} {s : State} {u : Id} (h : u ∉ x.defs) :
    (exec x s).env u = s.env u := by
  cases x with
  | store v a => rfl
  | vecStore vs a offset helpers => rfl
  | vecLoad ds a offset => exact setAll_of_notMem h _ _
  | load d a => exact Function.update_of_ne (by simpa [Insn.defs] using h) ..
  | call d args f => exact Function.update_of_ne (by simpa [Insn.defs] using h) ..
  | pure d args f => exact Function.update_of_ne (by simpa [Insn.defs] using h) ..

theorem run_env_of_notMem {l : List Insn} {u : Id} (h : ∀ y ∈ l, u ∉ y.defs) (s : State) :
    (run l s).env u = s.env u := by
  induction l generalizing s with
  | nil => rfl
  | cons x l ih =>
    have := ih (fun y hy => h y (List.mem_cons_of_mem _ hy)) (exec x s)
    exact this.trans (exec_env_of_notMem (h x List.mem_cons_self))

/-- An instruction sees the values it uses and the memory. -/
theorem exec_congr {x : Insn} {s s' : State} (huses : ∀ u ∈ x.uses, s'.env u = s.env u)
    (hmem : s'.mem = s.mem) :
    (exec x s').mem = (exec x s).mem ∧ ∀ d ∈ x.defs, (exec x s').env d = (exec x s).env d := by
  cases x with
  | load d a =>
    refine ⟨hmem, fun u hu => ?_⟩
    obtain rfl : u = d := by simpa [Insn.defs] using hu
    have := huses a.ptr (by simp [Insn.uses])
    simp [exec, hmem, this]
  | store v a =>
    have hv := huses v (by simp [Insn.uses])
    have ha := huses a.ptr (by simp [Insn.uses])
    refine ⟨by simp [exec, hmem, hv, ha], fun u hu => ?_⟩
    cases hu
  | call d args f =>
    have hargs : args.map s'.env = args.map s.env := List.map_congr_left huses
    refine ⟨by simp [exec, hmem, hargs], fun u hu => ?_⟩
    obtain rfl : u = d := by simpa [Insn.defs] using hu
    simp [exec, hmem, hargs]
  | pure d args f =>
    have hargs : args.map s'.env = args.map s.env := List.map_congr_left huses
    refine ⟨hmem, fun u hu => ?_⟩
    obtain rfl : u = d := by simpa [Insn.defs] using hu
    simp [exec, hargs]
  | vecLoad ds a offset =>
    refine ⟨hmem, fun u hu => ?_⟩
    have ha := huses a.ptr (by simp [Insn.uses])
    simp only [exec, hmem, ha]
    -- both give the names the same values, whatever was there before
    have hsame : ∀ (ds : List Id), u ∈ ds → ∀ (value : ℕ → ℤ) (env env' : Id → ℤ) (k : ℕ),
        setAll value env' k ds u = setAll value env k ds u := by
      intro ds
      induction ds with
      | nil => intro h; cases h
      | cons d ds ih =>
        intro h value env env' k
        rw [setAll, setAll]
        by_cases hmem : u ∈ ds
        · exact ih hmem _ _ _ _
        · obtain rfl : u = d := by simpa [hmem] using h
          rw [setAll_of_notMem hmem, setAll_of_notMem hmem, Function.update_self,
            Function.update_self]
    exact hsame ds hu _ _ _ _
  | vecStore vs a offset helpers =>
    have ha := huses a.ptr (by simp [Insn.uses])
    refine ⟨?_, fun u hu => by cases hu⟩
    simp only [exec, hmem, ha]
    congr 1
    refine List.map_congr_left fun p hp => ?_
    have hv := huses p.1 (List.mem_cons_of_mem _ (List.fst_mem_of_mem_zipIdx hp))
    rw [hv]

/-! ### Valuations -/

/-- Every instruction uses and defines the values of `V`. -/
def Consistent (V : Id → ℤ) : State → List Insn → Prop
  | _, [] => True
  | s, x :: l => (∀ u ∈ x.uses, s.env u = V u) ∧ (∀ d ∈ x.defs, (exec x s).env d = V d) ∧
      Consistent V (exec x s) l

variable {V : Id → ℤ}

theorem consistent_append {l l' : List Insn} {s : State} :
    Consistent V s (l ++ l') ↔ Consistent V s l ∧ Consistent V (run l s) l' := by
  induction l generalizing s with
  | nil => simp [Consistent, run]
  | cons x l ih =>
    rw [List.cons_append, Consistent, Consistent, ih]
    simp only [run, List.foldl_cons, and_assoc]

/-- What the values of an SSA block are in the end they are when they are used. -/
theorem SSA.consistent {l : List Insn} (h : SSA l) (s : State) : Consistent (run l s).env s l := by
  induction l generalizing s with
  | nil => trivial
  | cons x l ih =>
    obtain ⟨huses, hdefs, hrest⟩ := h
    refine ⟨fun u hu => ?_, fun d hd => ?_, ih hrest (exec x s)⟩
    · exact (run_env_of_notMem (huses u hu) s).symm
    · exact (run_env_of_notMem (hdefs d hd) (exec x s)).symm

/-- A value that is settled stays so. -/
theorem Consistent.settled {x : Insn} {s : State} {u : Id}
    (hdefs : ∀ d ∈ x.defs, (exec x s).env d = V d) (h : s.env u = V u) :
    (exec x s).env u = V u := by
  by_cases hu : u ∈ x.defs
  · exact hdefs u hu
  · rw [exec_env_of_notMem hu, h]

theorem Consistent.at {l : List Insn} {s : State} {n : ℕ} {x : Insn} (h : Consistent V s l)
    (hx : l[n]? = some x) : (∀ u ∈ x.uses, (run (l.take n) s).env u = V u) ∧
      (∀ d ∈ x.defs, (exec x (run (l.take n) s)).env d = V d) := by
  obtain ⟨hn, rfl⟩ := List.getElem?_eq_some_iff.mp hx
  rw [← List.take_append_drop n l, List.drop_eq_getElem_cons hn, consistent_append] at h
  exact ⟨h.2.1, h.2.2.1⟩

theorem take_succ_of_getElem? {α : Type*} {l : List α} {n : ℕ} {x : α} (h : l[n]? = some x) :
    l.take (n + 1) = l.take n ++ [x] := by
  rw [List.take_add_one, h, Option.toList_some]

/-! ### What an instruction touches -/

/-- The bytes that an access reads or writes. -/
def Access.bytes (V : Id → ℤ) (a : Access) : Set ℤ := Set.Ico (V a.ptr) (V a.ptr + a.ty.storeSize)

/-- The bytes of a vector of `n` elements. -/
def Access.vector (V : Id → ℤ) (a : Access) (offset : ℤ) (n : ℕ) : Set ℤ :=
  Set.Ico (V a.ptr + offset) (elementAt (V a.ptr) a offset n)

/-- A call reads the bytes that matter to what it does with its arguments. -/
def Insn.reads (V : Id → ℤ) : Insn → Set ℤ
  | .load _ a => a.bytes V
  | .vecLoad ds a offset => a.vector V offset ds.length
  | .call _ args f => depends (f (args.map V))
  | _ => ∅

def Insn.writes (V : Id → ℤ) : Insn → Set ℤ
  | .store _ a => a.bytes V
  | .vecStore vs a offset _ => a.vector V offset vs.length
  | .call _ args f => changes (f (args.map V))
  | _ => ∅

theorem element_subset {a : Access} {offset : ℤ} {n k : ℕ} (hk : k < n) {v : ℤ} :
    (cells (elementAt (V a.ptr) a offset k) a.ty v).range ⊆ a.vector V offset n := by
  rintro x ⟨hlo, hhi⟩
  simp only [cells, elementAt] at hlo hhi
  have hnk : (k + 1) * (a.ty.storeSize : ℤ) ≤ n * a.ty.storeSize :=
    mul_le_mul_of_nonneg_right (by omega) (by omega)
  have hk0 : 0 ≤ (k : ℤ) * a.ty.storeSize := by positivity
  constructor
  · omega
  · rw [elementAt]
    linarith

/-- An instruction changes no byte outside of what it writes. -/
theorem exec_mem_of_notMem {x : Insn} {s : State} (huses : ∀ u ∈ x.uses, s.env u = V u) {p : ℤ}
    (hp : p ∉ x.writes V) : (exec x s).mem p = s.mem p := by
  cases x with
  | load d a => rfl
  | pure d args f => rfl
  | vecLoad ds a offset => rfl
  | call d args f =>
    have hargs : args.map s.env = args.map V := List.map_congr_left huses
    show (f (args.map s.env) s.mem).2 p = s.mem p
    rw [hargs]
    exact not_not.mp fun h => hp ⟨s.mem, h⟩
  | store v a =>
    have ha := huses a.ptr (by simp [Insn.uses])
    refine write_of_notMem ?_
    rw [ha]
    exact hp
  | vecStore vs a offset helpers =>
    have ha := huses a.ptr (by simp [Insn.uses])
    refine writeAll_of_notMem fun c hc hpc => hp ?_
    obtain ⟨q, hq, rfl⟩ := List.mem_map.mp hc
    rw [ha] at hpc
    exact element_subset (List.snd_lt_of_mem_zipIdx hq) hpc

/-- Some writes done on top. -/
def State.overlay (s : State) (cs : List (Cells Byte)) : State := ⟨s.env, writeAll s.mem cs⟩

/-- Writes elsewhere are not noticed. -/
theorem exec_overlay {x : Insn} {s : State} {cs : List (Cells Byte)}
    (huses : ∀ u ∈ x.uses, s.env u = V u) (hreads : ∀ c ∈ cs, Disjoint (x.reads V) c.range)
    (hwrites : ∀ c ∈ cs, Disjoint (x.writes V) c.range) :
    exec x (s.overlay cs) = (exec x s).overlay cs := by
  cases x with
  | pure d args f => rfl
  | load d a =>
    have ha := huses a.ptr (by simp [Insn.uses])
    have hread : loadAt (writeAll s.mem cs) (s.env a.ptr) a.ty =
        loadAt s.mem (s.env a.ptr) a.ty := by
      rw [loadAt, loadAt, read_writeAll]
      rw [ha]
      exact fun c hc => (hreads c hc).symm
    simp only [exec, State.overlay, hread]
  | vecLoad ds a offset =>
    have ha := huses a.ptr (by simp [Insn.uses])
    have hread : ∀ k < ds.length,
        loadAt (writeAll s.mem cs) (elementAt (s.env a.ptr) a offset k) a.ty =
          loadAt s.mem (elementAt (s.env a.ptr) a offset k) a.ty := by
      intro k hk
      rw [loadAt, loadAt, read_writeAll]
      rw [ha]
      intro c hc
      exact (hreads c hc).symm.mono_right (element_subset hk (v := 0))
    refine congrArg (fun env => State.mk env (writeAll s.mem cs)) ?_
    exact setAll_congr _ _ fun n hn => hread (0 + n) (by omega)
  | call d args f =>
    have hargs : args.map s.env = args.map V := List.map_congr_left huses
    simp only [exec, State.overlay, hargs]
    rw [apply_writeAll hreads hwrites]
  | store v a =>
    have ha := huses a.ptr (by simp [Insn.uses])
    simp only [exec, State.overlay]
    rw [write_writeAll]
    rw [ha]
    exact fun c hc => (hwrites c hc).symm
  | vecStore vs a offset helpers =>
    have ha := huses a.ptr (by simp [Insn.uses])
    simp only [exec, State.overlay]
    rw [writeAll_comm]
    intro c hc e he
    obtain ⟨q, hq, rfl⟩ := List.mem_map.mp he
    rw [ha]
    exact (hwrites c hc).symm.mono_right (element_subset (List.snd_lt_of_mem_zipIdx hq))

end Llvm.LoadStore
