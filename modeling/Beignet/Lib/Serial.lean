/-
Binary formats that are written and read by hand.

A `Serial` computation works on a stream of bytes and counts them in 32 bits.  A writer appends
to the stream and a reader takes from its front; both fail as a whole.  `Writes w bs` says that
`w` writes exactly `bs`, and `Reads r bs a` that `r` makes `a` of `bs`, whatever follows; the
rules below put a format together from its parts, and the two sides of a round trip are then
proved part by part.

* `Writes.seq`, `Reads.bind` — one part after another.
* `writes_forM`, `reads_readMany` — repeated parts.
* `writes_framed`, `reads_framed` — a block between two marks, with its size behind it.
-/
import Beignet.Lib.Bytes

namespace Codec

open Bytes

abbrev Byte := BitVec 8

/-- A computation on a stream and its counter. -/
abbrev Serial := StateT (List Byte × BitVec 32) Option

/-! ### Primitives -/

/-- Append bytes to the stream. -/
def put (bs : List Byte) : Serial Unit := fun s =>
  some ((), s.1 ++ bs, s.2 + BitVec.ofNat 32 bs.length)

/-- Take bytes from the front of the stream. -/
def take (k : ℕ) : Serial (List Byte) := fun s =>
  if s.1.length < k then none else some (s.1.take k, s.1.drop k, s.2 + BitVec.ofNat 32 k)

/-- The counter. -/
def counter : Serial (BitVec 32) := fun s => some (s.2, s)

/-- Go on only if the test holds. -/
def require (c : Prop) [Decidable c] : Serial Unit := fun s => if c then some ((), s) else none

/-- The bytes of a word. -/
def le32 (w : BitVec 32) : List Byte := [byte w 0, byte w 1, byte w 2, byte w 3]

/-- The word of the first four bytes. -/
def word : List Byte → BitVec 32
  | [b0, b1, b2, b3] => b3 ++ b2 ++ b1 ++ b0
  | _ => 0

def out32 (w : BitVec 32) : Serial Unit := put (le32 w)

def in32 : Serial (BitVec 32) := do return word (← take 4)

def out8 (b : Byte) : Serial Unit := put [b]

def in8 : Serial Byte := do return (← take 1).headD 0

/-- Read `n` parts in a row. -/
def readMany {α : Type} : ℕ → Serial α → Serial (List α)
  | 0, _ => pure []
  | n + 1, r => do
    let a ← r
    return a :: (← readMany n r)

/-- A list behind its length. -/
def outList {α : Type} (w : α → Serial Unit) (l : List α) : Serial Unit := do
  out32 (BitVec.ofNat 32 l.length)
  l.forM w

def inList {α : Type} (r : Serial α) : Serial (List α) := do
  let n ← in32
  readMany n.toNat r

/-- A string behind its length. -/
def outString (s : List Byte) : Serial Unit := do
  out32 (BitVec.ofNat 32 s.length)
  put s

/-- The string ends at the first zero. -/
def inString : Serial (List Byte) := do
  let len ← in32
  return (← take len.toNat).takeWhile (· ≠ 0)

/-- A part that counts for itself; its count is its result, and zero is a failure. -/
def nested {α : Type} (part : Serial α) : Serial α := fun s =>
  match part (s.1, 0#32) with
  | some (a, stream, n) => if n = 0 then none else some (a, stream, s.2 + n)
  | none => none

/-- A part that may be there, behind a flag. -/
def outFlagged (part : Option (Serial Unit)) : Serial Unit :=
  match part with
  | some w => do
    out32 1
    nested w
  | none => out32 0

def inFlagged {α : Type} (part : Serial α) : Serial (Option α) := do
  let has ← in32
  if has ≠ 0 then return some (← nested part) else return none

/-- A block between two marks, with its size behind it. -/
def writeFramed (magic_begin magic_end : BitVec 32) (body : Serial Unit) : Serial Unit := do
  out32 magic_begin
  body
  out32 magic_end
  out32 (← counter)

def readFramed {α : Type} (magic_begin magic_end : BitVec 32) (body : Serial α) : Serial α := do
  require ((← in32) = magic_begin)
  let a ← body
  require ((← in32) = magic_end)
  let total_bytes ← in32
  require (total_bytes.toNat + 4 = (← counter).toNat)
  return a

/-! ### Specifications -/

/-- The writer appends the bytes and counts them. -/
def Writes (w : Serial Unit) (bs : List Byte) : Prop :=
  ∀ s n, w (s, n) = some ((), s ++ bs, n + BitVec.ofNat 32 bs.length)

/-- The reader makes `a` of the bytes and counts them. -/
def Reads {α : Type} (r : Serial α) (bs : List Byte) (a : α) : Prop :=
  ∀ rest n, r (bs ++ rest, n) = some (a, rest, n + BitVec.ofNat 32 bs.length)

theorem bind_apply {α β : Type} (x : Serial α) (f : α → Serial β) (s : List Byte × BitVec 32) :
    (x >>= f) s = (x s).bind fun r => f r.1 r.2 := by
  show (do let (a, s) ← x s; f a s) = _
  cases x s <;> rfl

theorem require_run {c : Prop} [Decidable c] (h : c) (s : List Byte × BitVec 32) :
    require c s = some ((), s) := if_pos h

theorem counter_run (s : List Byte × BitVec 32) : counter s = some (s.2, s) := rfl

theorem count_append (n : BitVec 32) (bs bs' : List Byte) :
    n + BitVec.ofNat 32 bs.length + BitVec.ofNat 32 bs'.length =
      n + BitVec.ofNat 32 (bs ++ bs').length := by
  rw [List.length_append, BitVec.ofNat_add, BitVec.add_assoc]

theorem writes_put (bs : List Byte) : Writes (put bs) bs := fun _ _ => rfl

theorem writes_out32 (w : BitVec 32) : Writes (out32 w) (le32 w) := writes_put _

theorem writes_out8 (b : Byte) : Writes (out8 b) [b] := writes_put _

theorem writes_skip : Writes (pure ()) [] := by
  intro s n
  show some ((), s, n) = some ((), s ++ [], n + 0#32)
  rw [List.append_nil, BitVec.add_zero]

theorem Writes.seq {w w' : Serial Unit} {bs bs' : List Byte} (h : Writes w bs)
    (h' : Writes w' bs') : Writes (do w; w') (bs ++ bs') := by
  intro s n
  rw [bind_apply, h s n, Option.bind_some, h' _ _, count_append, List.append_assoc]

theorem writes_forM {α : Type} {w : α → Serial Unit} {enc : α → List Byte} {l : List α}
    (h : ∀ a ∈ l, Writes (w a) (enc a)) : Writes (l.forM w) (l.flatMap enc) := by
  induction l with
  | nil => exact writes_skip
  | cons a l ih =>
    exact Writes.seq (h a List.mem_cons_self) (ih fun b hb => h b (List.mem_cons_of_mem _ hb))

theorem reads_pure {α : Type} (a : α) : Reads (Pure.pure a) [] a := by
  intro rest n
  show some (a, rest, n) = some (a, rest, n + 0#32)
  rw [BitVec.add_zero]

theorem Reads.bind {α β : Type} {r : Serial α} {f : α → Serial β} {bs bs' : List Byte} {a : α}
    {b : β} (h : Reads r bs a) (h' : Reads (f a) bs' b) : Reads (r >>= f) (bs ++ bs') b := by
  intro rest n
  rw [bind_apply, List.append_assoc, h _ n, Option.bind_some, h' _ _, count_append]

/-- A step that takes nothing. -/
theorem Reads.step {α β : Type} {r : Serial α} {f : α → Serial β} {bs : List Byte} {a : α}
    {b : β} (h : Reads r [] a) (h' : Reads (f a) bs b) : Reads (r >>= f) bs b := h.bind h'

theorem Reads.map {α β : Type} {r : Serial α} {bs : List Byte} {a : α} (g : α → β)
    (h : Reads r bs a) : Reads (do return g (← r)) bs (g a) := by
  have h' : Reads (do return g (← r)) (bs ++ []) (g a) := h.bind (reads_pure (g a))
  rwa [List.append_nil] at h'

theorem reads_require {c : Prop} [Decidable c] (h : c) : Reads (require c) [] () := by
  intro rest n
  show require c (rest, n) = some ((), rest, n + 0#32)
  rw [require_run h, BitVec.add_zero]

theorem reads_take (bs : List Byte) : Reads (take bs.length) bs bs := by
  intro rest n
  have hlen : ¬ (bs ++ rest).length < bs.length := by simp
  show (if (bs ++ rest).length < bs.length then none else _) = _
  rw [if_neg hlen, List.take_left, List.drop_left]

theorem word_le32 (w : BitVec 32) : word (le32 w) = w := by
  apply ext_byte
  intro k hk
  show byte (byte w 3 ++ byte w 2 ++ byte w 1 ++ byte w 0) k = byte w k
  exact byte_load (fun i => byte w i) 0 hk |>.trans (by rw [Nat.zero_add])

theorem reads_in32 (w : BitVec 32) : Reads in32 (le32 w) w := by
  have h := (reads_take (le32 w)).map word
  rwa [word_le32] at h

theorem reads_in8 (b : Byte) : Reads in8 [b] b :=
  (reads_take [b]).map (fun bs : List Byte => bs.headD 0)

theorem reads_readMany {α : Type} {r : Serial α} {enc : α → List Byte} {l : List α}
    (h : ∀ a ∈ l, Reads r (enc a) a) : Reads (readMany l.length r) (l.flatMap enc) l := by
  induction l with
  | nil => exact reads_pure []
  | cons a l ih =>
    refine (h a List.mem_cons_self).bind ?_
    exact (ih fun b hb => h b (List.mem_cons_of_mem _ hb)).map (List.cons a)

/-- The layout of a list and of a string. -/
def list {α : Type} (enc : α → List Byte) (l : List α) : List Byte :=
  le32 (BitVec.ofNat 32 l.length) ++ l.flatMap enc

def string (s : List Byte) : List Byte := le32 (BitVec.ofNat 32 s.length) ++ s

theorem toNat_length {α : Type} {l : List α} (h : l.length < 2 ^ 32) :
    (BitVec.ofNat 32 l.length).toNat = l.length := by
  rw [BitVec.toNat_ofNat, Nat.mod_eq_of_lt h]

theorem writes_outList {α : Type} {w : α → Serial Unit} {enc : α → List Byte} {l : List α}
    (h : ∀ a ∈ l, Writes (w a) (enc a)) : Writes (outList w l) (list enc l) :=
  (writes_out32 _).seq (writes_forM h)

theorem reads_inList {α : Type} {r : Serial α} {enc : α → List Byte} {l : List α}
    (hlen : l.length < 2 ^ 32) (h : ∀ a ∈ l, Reads r (enc a) a) :
    Reads (inList r) (list enc l) l := by
  refine (reads_in32 _).bind ?_
  rw [toNat_length hlen]
  exact reads_readMany h

theorem writes_outString (s : List Byte) : Writes (outString s) (string s) :=
  (writes_out32 _).seq (writes_put s)

theorem reads_inString {s : List Byte} (hlen : s.length < 2 ^ 32) (hs : 0 ∉ s) :
    Reads inString (string s) s := by
  refine (reads_in32 _).bind ?_
  rw [toNat_length hlen]
  have h := (reads_take s).map (List.takeWhile fun b : Byte => b ≠ 0)
  have hall : s.takeWhile (fun b : Byte => b ≠ 0) = s := by
    rw [List.takeWhile_eq_self_iff]
    intro b hb
    simpa using ne_of_mem_of_not_mem hb hs
  rwa [hall] at h

/-! ### Blocks -/

/-- The layout of a block. -/
def frame (magic_begin magic_end : BitVec 32) (bs : List Byte) : List Byte :=
  le32 magic_begin ++ (bs ++ (le32 magic_end ++ le32 (BitVec.ofNat 32 (bs.length + 8))))

@[simp] theorem length_le32 (w : BitVec 32) : (le32 w).length = 4 := rfl

theorem length_frame (magic_begin magic_end : BitVec 32) (bs : List Byte) :
    (frame magic_begin magic_end bs).length = bs.length + 12 := by
  simp [frame]
  omega

section Framed

variable {magic_begin magic_end : BitVec 32} {bs : List Byte}

/-- The counter before the size is written. -/
theorem count_body (bs : List Byte) :
    0#32 + BitVec.ofNat 32 4 + BitVec.ofNat 32 bs.length + BitVec.ofNat 32 4 =
      BitVec.ofNat 32 (bs.length + 8) := by
  rw [BitVec.zero_add, BitVec.add_comm (BitVec.ofNat 32 4), BitVec.add_assoc, ← BitVec.ofNat_add,
    ← BitVec.ofNat_add]

theorem count_frame (bs : List Byte) :
    BitVec.ofNat 32 (bs.length + 8) + BitVec.ofNat 32 4 =
      BitVec.ofNat 32 (frame magic_begin magic_end bs).length := by
  rw [length_frame, ← BitVec.ofNat_add]

theorem frame_count_ne_zero (hsize : (frame magic_begin magic_end bs).length < 2 ^ 32) :
    BitVec.ofNat 32 (frame magic_begin magic_end bs).length ≠ 0 := by
  intro h
  have := congrArg BitVec.toNat h
  rw [BitVec.toNat_ofNat, Nat.mod_eq_of_lt hsize, length_frame] at this
  cases this

theorem writeFramed_run {body : Serial Unit} (h : Writes body bs) (s : List Byte) :
    writeFramed magic_begin magic_end body (s, 0#32) =
      some ((), s ++ frame magic_begin magic_end bs,
        BitVec.ofNat 32 (frame magic_begin magic_end bs).length) := by
  have hrun : writeFramed magic_begin magic_end body (s, 0#32) =
      some ((), s ++ le32 magic_begin ++ bs ++ le32 magic_end ++
        le32 (0#32 + BitVec.ofNat 32 4 + BitVec.ofNat 32 bs.length + BitVec.ofNat 32 4),
        0#32 + BitVec.ofNat 32 4 + BitVec.ofNat 32 bs.length + BitVec.ofNat 32 4 +
          BitVec.ofNat 32 4) := by
    rw [writeFramed, bind_apply, writes_out32 magic_begin s 0#32, Option.bind_some, bind_apply, h,
      Option.bind_some, bind_apply, writes_out32, Option.bind_some, bind_apply]
    rfl
  rw [hrun, count_body, count_frame, frame]
  simp only [List.append_assoc]

/-- A block is written as its layout. -/
theorem writes_framed {body : Serial Unit} (h : Writes body bs)
    (hsize : (frame magic_begin magic_end bs).length < 2 ^ 32) :
    Writes (nested (writeFramed magic_begin magic_end body)) (frame magic_begin magic_end bs) := by
  intro s n
  rw [nested, writeFramed_run h s]
  exact if_neg (frame_count_ne_zero hsize)

theorem readFramed_run {α : Type} {body : Serial α} {a : α} (h : Reads body bs a)
    (hsize : (frame magic_begin magic_end bs).length < 2 ^ 32) (rest : List Byte) :
    readFramed magic_begin magic_end body (frame magic_begin magic_end bs ++ rest, 0#32) =
      some (a, rest, BitVec.ofNat 32 (frame magic_begin magic_end bs).length) := by
  have hlen : bs.length + 12 < 2 ^ 32 := by rwa [length_frame] at hsize
  -- the size that is read is the count of what was read before it
  have htotal : (BitVec.ofNat 32 (bs.length + 8)).toNat + 4 =
      (0#32 + BitVec.ofNat 32 4 + BitVec.ofNat 32 bs.length + BitVec.ofNat 32 4 +
        BitVec.ofNat 32 4).toNat := by
    rw [count_body, ← BitVec.ofNat_add, BitVec.toNat_ofNat, BitVec.toNat_ofNat,
      Nat.mod_eq_of_lt hlen, Nat.mod_eq_of_lt (by omega)]
  rw [readFramed, frame]
  simp only [List.append_assoc]
  rw [bind_apply, reads_in32 magic_begin _ 0#32, Option.bind_some, bind_apply, require_run rfl,
    Option.bind_some, bind_apply, h, Option.bind_some, bind_apply, reads_in32, Option.bind_some,
    bind_apply, require_run rfl, Option.bind_some, bind_apply, reads_in32, Option.bind_some,
    bind_apply, counter_run, Option.bind_some, bind_apply, require_run]
  · show some (a, rest, 0#32 + BitVec.ofNat 32 4 + BitVec.ofNat 32 bs.length + BitVec.ofNat 32 4 +
      BitVec.ofNat 32 4) = some (a, rest, BitVec.ofNat 32 (frame magic_begin magic_end bs).length)
    rw [count_body, count_frame]
  · exact htotal

/-- The layout of a block is read as the block. -/
theorem reads_framed {α : Type} {body : Serial α} {a : α} (h : Reads body bs a)
    (hsize : (frame magic_begin magic_end bs).length < 2 ^ 32) :
    Reads (nested (readFramed magic_begin magic_end body)) (frame magic_begin magic_end bs) a := by
  intro rest n
  rw [nested, readFramed_run h hsize rest]
  exact if_neg (frame_count_ne_zero hsize)

end Framed

/-- The layout of a part that may be there. -/
def flagged (part : Option (List Byte)) : List Byte :=
  match part with
  | some bs => le32 1 ++ bs
  | none => le32 0

theorem writes_flagged_some {w : Serial Unit} {bs : List Byte} (h : Writes (nested w) bs) :
    Writes (outFlagged (some w)) (flagged (some bs)) := (writes_out32 _).seq h

theorem writes_flagged_none : Writes (outFlagged none) (flagged none) := writes_out32 _

theorem reads_flagged_some {α : Type} {r : Serial α} {bs : List Byte} {a : α}
    (h : Reads (nested r) bs a) : Reads (inFlagged r) (flagged (some bs)) (some a) := by
  refine (reads_in32 1).bind ?_
  rw [if_pos (by decide)]
  exact h.map some

theorem reads_flagged_none {α : Type} {r : Serial α} :
    Reads (inFlagged r) (flagged none) none := by
  have h : Reads (inFlagged r) (le32 0 ++ []) none := by
    refine (reads_in32 0).bind ?_
    rw [if_neg (by decide)]
    exact reads_pure none
  rwa [List.append_nil] at h

end Codec
