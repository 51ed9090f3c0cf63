import JarRank.ClassFile.Fault

/-!
# Cursors and readers

A cursor stands in a buffer, at an absolute offset; the offset is any integer,
because a buffer may be a slice of a larger one. A reader takes a cursor to a
result and to the cursor where it stopped, also when it fails: what a failing
reader has consumed stays consumed, and the next reader sees exactly the bytes
behind it.

A cursor is kept as its buffer, an index in it and the offset of its first byte.
What it stands for is simpler: an offset, and the bytes that are left. Readers run
on either, since they know no more of a cursor than where it is and how to move over
a number of bytes, or fail without moving.
-/
namespace JarRank.ClassFile

/-- What readers know of a cursor. -/
class Source (κ : Type) where
  /-- The start of a buffer whose first byte is at offset `base`. -/
  ofBytes (data : Bytes) (base : Int) : κ
  position : κ → Int
  /-- Moves over `n` bytes, or fails and does not move. -/
  advance (n : Int) : κ → Except Fault Unit × κ
  /-- Moves over `n` bytes and gives them. -/
  take (n : Int) : κ → Except Fault Bytes × κ

structure ByteCursor where
  buffer : Array UInt8
  /-- Where the next byte is in the buffer. -/
  index : Nat
  /-- The offset of the first byte of the buffer. -/
  base : Int
  index_le : index ≤ buffer.size
  deriving DecidableEq, Repr

namespace ByteCursor

def ofBytes (data : Bytes) (base : Int) : ByteCursor := ⟨data.toArray, 0, base, Nat.zero_le _⟩

def position (c : ByteCursor) : Int := c.base + c.index

def remaining (c : ByteCursor) : Nat := c.buffer.size - c.index

/-- Moves over `n` bytes and gives the index of the first, or fails and does not move. -/
def require (n : Int) (c : ByteCursor) : Except Fault Nat × ByteCursor :=
  if h : 0 ≤ n ∧ n ≤ c.remaining then
    (.ok c.index, ⟨c.buffer, c.index + n.toNat, c.base, by
      have := c.index_le
      unfold remaining at h
      omega⟩)
  else (.error (.truncated c.position n c.remaining), c)

def advance (n : Int) (c : ByteCursor) : Except Fault Unit × ByteCursor :=
  match c.require n with
  | (.ok _, d) => (.ok (), d)
  | (.error e, d) => (.error e, d)

def take (n : Int) (c : ByteCursor) : Except Fault Bytes × ByteCursor :=
  match c.require n with
  | (.ok start, d) => (.ok (c.buffer.extract start (start + n.toNat)).toList, d)
  | (.error e, d) => (.error e, d)

instance : Source ByteCursor := ⟨ofBytes, position, advance, take⟩

end ByteCursor

/-- What a cursor stands for: an offset and the bytes from there on. -/
structure Cursor where
  position : Int
  rest : Bytes
  deriving DecidableEq, Repr

namespace Cursor

def remaining (c : Cursor) : Nat := c.rest.length

def ofBytes (data : Bytes) (base : Int) : Cursor := ⟨base, data⟩

def advance (n : Int) (c : Cursor) : Except Fault Unit × Cursor :=
  match n with
  | .ofNat k =>
      match Bytes.drop? k c.rest with
      | some rest => (.ok (), ⟨c.position + k, rest⟩)
      | none => (.error (.truncated c.position n c.remaining), c)
  | .negSucc _ => (.error (.truncated c.position n c.remaining), c)

def take (n : Int) (c : Cursor) : Except Fault Bytes × Cursor :=
  match c.advance n with
  | (.ok (), d) => (.ok (c.rest.take n.toNat), d)
  | (.error e, d) => (.error e, d)

instance : Source Cursor := ⟨ofBytes, position, advance, take⟩

/-- The cursor behind the next bytes. -/
def forward (c : Cursor) (n : Nat) : Cursor := ⟨c.position + n, c.rest.drop n⟩

@[simp] theorem forward_zero (c : Cursor) : c.forward 0 = c := by simp [forward]

@[simp] theorem forward_forward (c : Cursor) (m n : Nat) :
    (c.forward m).forward n = c.forward (m + n) := by
  simp [forward, Int.add_assoc]

@[simp] theorem remaining_forward (c : Cursor) (n : Nat) :
    (c.forward n).remaining = c.remaining - n := by
  simp [forward, remaining]

end Cursor

/-- Takes a cursor to a result and to the cursor where it stopped. -/
def Reader (κ ε α : Type) := κ → Except ε α × κ

namespace Reader

variable {κ ε ε' α β : Type}

/-- Reads nothing. -/
@[inline] protected def pure (a : α) : Reader κ ε α := fun c => (.ok a, c)

/-- One reader after another; a fault of the first ends both. -/
@[inline] protected def bind (r : Reader κ ε α) (f : α → Reader κ ε β) : Reader κ ε β := fun c =>
  match r c with
  | (.ok a, c) => f a c
  | (.error e, c) => (.error e, c)

instance : Monad (Reader κ ε) where
  pure := Reader.pure
  bind := Reader.bind

@[inline] def fail (e : ε) : Reader κ ε α := fun c => (.error e, c)

@[inline] def position [Source κ] : Reader κ ε Int := fun c => (.ok (Source.position c), c)

/-- Fails with the fault of a computation that reads nothing. -/
@[inline] def ofExcept : Except ε α → Reader κ ε α
  | .ok a => Reader.pure a
  | .error e => fail e

/-- Renames the faults of a reader. -/
@[inline] def mapFault (f : ε → ε') (r : Reader κ ε α) : Reader κ ε' α := fun c =>
  match r c with
  | (.ok a, c) => (.ok a, c)
  | (.error e, c) => (.error (f e), c)

@[simp] theorem pure_apply (a : α) (c : κ) : (pure a : Reader κ ε α) c = (.ok a, c) := rfl

theorem bind_apply (r : Reader κ ε α) (f : α → Reader κ ε β) (c : κ) :
    (r >>= f) c = match r c with
      | (.ok a, c) => f a c
      | (.error e, c) => (.error e, c) := rfl

instance : LawfulMonad (Reader κ ε) :=
  LawfulMonad.mk' (Reader κ ε)
    (fun r => funext fun c => by
      change (r >>= fun a => pure (id a)) c = r c
      rw [bind_apply]
      split <;> simp_all)
    (fun _ _ => rfl)
    (fun r f g => funext fun c => by
      simp only [bind_apply]
      cases r c with
      | mk result d => cases result <;> rfl)

/-- The same reader a number of times, and what it read in order. -/
def times (n : Nat) (item : Reader κ ε α) : Reader κ ε (List α) := go item n []
where
  go (item : Reader κ ε α) : Nat → List α → κ → Except ε (List α) × κ
    | 0, acc, c => (.ok acc.reverse, c)
    | n + 1, acc, c =>
        match item c with
        | (.ok a, c) => go item n (a :: acc) c
        | (.error e, c) => (.error e, c)

variable [Source κ]

/-- Moves over `n` bytes, or fails and does not move. -/
def advance (n : Int) : Reader κ Fault Unit := Source.advance n

def take (n : Int) : Reader κ Fault Bytes := Source.take n

def number (width : Nat) : Reader κ Fault Nat := fun c =>
  match take width c with
  | (.ok bs, d) => (.ok (Bytes.bigEndian bs), d)
  | (.error e, d) => (.error e, d)

def u8 : Reader κ Fault Nat := number 1

def u16 : Reader κ Fault Nat := number 2

def u32 : Reader κ Fault Nat := number 4

theorem advance_apply (n : Int) (c : Cursor) : advance n c = c.advance n := rfl

theorem take_apply (n : Int) (c : Cursor) : take n c = c.take n := rfl

theorem advance_eq (n : Nat) (c : Cursor) : advance n c =
    if n ≤ c.remaining then (.ok (), c.forward n)
    else (.error (.truncated c.position n c.remaining), c) := by
  rw [advance_apply]
  unfold Cursor.advance
  by_cases h : n ≤ c.remaining
  · have hd : Bytes.drop? n c.rest = some (c.rest.drop n) := Bytes.drop?_eq_some_iff.2 ⟨h, rfl⟩
    simp [h, hd, Cursor.forward]
  · have hd : Bytes.drop? n c.rest = none := Bytes.drop?_eq_none_iff.2 (Nat.not_le.1 h)
    simp [h, hd]

theorem take_eq (n : Nat) (c : Cursor) : take n c =
    if n ≤ c.remaining then (.ok (c.rest.take n), c.forward n)
    else (.error (.truncated c.position n c.remaining), c) := by
  rw [take_apply, Cursor.take, ← advance_apply, advance_eq]
  by_cases h : n ≤ c.remaining
  · simp [h]
  · simp [h]

theorem number_eq (width : Nat) (c : Cursor) : number width c =
    if width ≤ c.remaining then (.ok (Bytes.bigEndian (c.rest.take width)), c.forward width)
    else (.error (.truncated c.position width c.remaining), c) := by
  unfold number
  rw [take_eq]
  by_cases h : width ≤ c.remaining
  · simp [h]
  · simp [h]

theorem advance_append {n : Int} {bs : Bytes} (h : n = bs.length) (rest : Bytes) (p : Int) :
    advance n (⟨p, bs ++ rest⟩ : Cursor) = (.ok (), ⟨p + n, rest⟩) := by
  subst h
  have hd : Bytes.drop? bs.length (bs ++ rest) = some rest :=
    Bytes.drop?_eq_some_iff.2 ⟨by simp, by simp⟩
  simp [advance_apply, Cursor.advance, hd]

theorem take_append {n : Int} {bs : Bytes} (h : n = bs.length) (rest : Bytes) (p : Int) :
    take n (⟨p, bs ++ rest⟩ : Cursor) = (.ok bs, ⟨p + n, rest⟩) := by
  subst h
  have hadvance : Cursor.advance bs.length ⟨p, bs ++ rest⟩ = (.ok (), ⟨p + bs.length, rest⟩) :=
    advance_append rfl rest p
  simp [take_apply, Cursor.take, hadvance]

end Reader
end JarRank.ClassFile
