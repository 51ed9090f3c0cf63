import JarRank.Proofs.ClassFile.CursorView
import JarRank.Proofs.ClassFile.Influence
import Mathlib.Algebra.Ring.Int.Defs

/-!
# Calls on one cursor

Readers that are called in turn share one cursor: each call begins where the one before it has
stopped, whether it succeeded or not. If every call passes over bytes, the bytes that the calls have
passed stand one after another behind the first cursor, and behind them is what the next call meets.

The least of these readers are the operations of a cursor. Each has a width, which may be any
integer. It succeeds if the width is neither negative nor more than what is left, and passes so many
bytes; otherwise it leaves the cursor alone. So the calls that fail may be left out, and where the
others leave the cursor is told by the sum of their widths.
-/
namespace JarRank.ClassFile

open Reader

namespace Cursor.Passes

variable {c d : Cursor} {bs : Bytes}

theorem position_le (h : c.Passes bs d) : c.position ≤ d.position := by
  rw [h.2]
  omega

/-- What was passed and what is left add up. -/
theorem position_add_remaining (h : c.Passes bs d) :
    d.position + d.remaining = c.position + c.remaining := by
  rw [h.2, h.remaining]
  push_cast
  omega

theorem toNat_sub (h : c.Passes bs d) : (d.position - c.position).toNat = bs.length := by
  rw [h.2]
  omega

theorem eq_take (h : c.Passes bs d) : bs = c.rest.take (d.position - c.position).toNat := by
  rw [h.toNat_sub, h.1, List.take_left]

theorem rest_eq_drop (h : c.Passes bs d) : d.rest = c.rest.drop (d.position - c.position).toNat := by
  rw [h.toNat_sub, h.1, List.drop_left]

end Cursor.Passes

theorem Cursor.passes_forward (c : Cursor) {n : Nat} (h : n ≤ c.remaining) :
    c.Passes (c.rest.take n) (c.forward n) := by
  refine ⟨(List.take_append_drop n c.rest).symm, ?_⟩
  rw [List.length_take_of_le h]
  rfl

/-! ### Calls in turn -/

/-- A call: who was called, where the cursor stood, what came of it and where the cursor was left. -/
structure Call (κ ι α : Type) where
  item : ι
  start : κ
  outcome : Except Fault α
  stop : κ

section
variable {κ ι α : Type} {run : ι → Reader Cursor Fault α} {is : List ι} {c d : Cursor}
variable {k : Call Cursor ι α} {ks : List (Call Cursor ι α)}

namespace Call

def succeeds (k : Call κ ι α) : Bool := k.outcome.isOk

/-- The same call of what the cursors stand for. -/
def view (k : Call ByteCursor ι α) : Call Cursor ι α := ⟨k.item, k.start.view, k.outcome, k.stop.view⟩

/-- The bytes from where the cursor stood to where it was left. -/
def passed (k : Call Cursor ι α) : Bytes := k.start.rest.take (k.stop.position - k.start.position).toNat

theorem passed_eq {bs : Bytes} (h : k.start.Passes bs k.stop) : k.passed = bs := h.eq_take.symm

end Call

/-- The calls of some readers in turn. -/
def calls (run : ι → Reader κ Fault α) : List ι → κ → List (Call κ ι α)
  | [], _ => []
  | i :: is, c => ⟨i, c, (run i c).1, (run i c).2⟩ :: calls run is (run i c).2

/-- Where some readers in turn leave the cursor. -/
def cursorAfter (run : ι → Reader κ Fault α) : List ι → κ → κ
  | [], c => c
  | i :: is, c => cursorAfter run is (run i c).2

theorem map_item_calls (is : List ι) (c : Cursor) : (calls run is c).map Call.item = is := by
  induction is generalizing c with
  | nil => rfl
  | cons i is ih => rw [calls, List.map_cons, ih]

theorem run_of_mem_calls (h : k ∈ calls run is c) : run k.item k.start = (k.outcome, k.stop) := by
  induction is generalizing c with
  | nil => cases h
  | cons i is ih =>
      rcases List.mem_cons.1 h with rfl | h
      · rfl
      · exact ih h

/-- On a cursor on a buffer the calls are those of what it stands for, and all of them stay in the
buffer. -/
theorem calls_view {run' : ι → Reader ByteCursor Fault α} (hrun : ∀ i, (run' i).Refines (run i))
    (is : List ι) (b : ByteCursor) : (calls run' is b).map Call.view = calls run is b.view ∧
      ∀ k ∈ calls run' is b, b.Beside k.start ∧ b.Beside k.stop := by
  induction is generalizing b with
  | nil => exact ⟨rfl, nofun⟩
  | cons i is ih =>
      obtain ⟨hcalls, hplaces⟩ := ih (run' i b).2
      have hfirst := (hrun i).beside b
      constructor
      · rw [calls, calls, List.map_cons, hcalls, (hrun i).view b]
        rfl
      · intro k hk
        rcases List.mem_cons.1 hk with rfl | hk
        · exact ⟨.refl b, hfirst⟩
        · obtain ⟨hstart, hstop⟩ := hplaces k hk
          exact ⟨hfirst.trans hstart, hfirst.trans hstop⟩

theorem cursorAfter_view {run' : ι → Reader ByteCursor Fault α} (hrun : ∀ i, (run' i).Refines (run i))
    (is : List ι) (b : ByteCursor) :
    (cursorAfter run' is b).view = cursorAfter run is b.view ∧ b.Beside (cursorAfter run' is b) := by
  induction is generalizing b with
  | nil => exact ⟨rfl, .refl b⟩
  | cons i is ih =>
      obtain ⟨hview, hbeside⟩ := ih (run' i b).2
      constructor
      · rw [cursorAfter, cursorAfter, hview, (hrun i).view b]
      · exact ((hrun i).beside b).trans hbeside

/-- Calls from one cursor to another, each of which begins where the one before it has stopped. -/
inductive Joined : Cursor → List (Call Cursor ι α) → Cursor → Prop
  | nil (c : Cursor) : Joined c [] c
  | cons (k : Call Cursor ι α) (ks : List (Call Cursor ι α)) (d : Cursor) : Joined k.stop ks d →
      Joined k.start (k :: ks) d

theorem joined_calls (run : ι → Reader Cursor Fault α) (is : List ι) (c : Cursor) :
    Joined c (calls run is c) (cursorAfter run is c) := by
  induction is generalizing c with
  | nil => exact .nil c
  | cons i is ih => exact .cons ⟨i, c, (run i c).1, (run i c).2⟩ _ _ (ih (run i c).2)

namespace Joined

/-- The calls in front of one lead to where it begins. -/
theorem front {front back : List (Call Cursor ι α)} (h : Joined c (front ++ k :: back) d) :
    Joined c front k.start := by
  induction front generalizing c with
  | nil =>
      cases h
      exact .nil k.start
  | cons l front ih =>
      cases h with
      | cons _ _ _ h => exact .cons l front k.start (ih h)

/-- Calls that leave the cursor alone may be left out. -/
theorem filter {P : Call Cursor ι α → Bool} (h : Joined c ks d)
    (hstill : ∀ k ∈ ks, P k = false → k.stop = k.start) : Joined c (ks.filter P) d := by
  induction h with
  | nil c => exact .nil c
  | cons k ks d _ ih =>
      rcases List.forall_mem_cons.1 hstill with ⟨hk, hks⟩
      cases hP : P k with
      | true =>
          rw [List.filter_cons_of_pos hP]
          exact .cons k _ d (ih hks)
      | false =>
          rw [List.filter_cons_of_neg (by simp [hP]), ← hk hP]
          exact ih hks

/-- What the calls have passed stands between the first cursor and the last. -/
theorem passes (h : Joined c ks d) (hk : ∀ k ∈ ks, k.start.Passes k.passed k.stop) :
    c.Passes (ks.flatMap Call.passed) d := by
  induction h with
  | nil c => exact .refl c
  | cons k ks d _ ih =>
      rcases List.forall_mem_cons.1 hk with ⟨hfirst, hrest⟩
      exact hfirst.trans (ih hrest)

/-- No call begins before another one that was made earlier has stopped. -/
theorem pairwise (h : Joined c ks d) (hk : ∀ k ∈ ks, k.start.Passes k.passed k.stop) :
    ks.Pairwise fun k l => k.stop.position ≤ l.start.position := by
  induction h with
  | nil c => exact .nil
  | cons k ks d h ih =>
      rcases List.forall_mem_cons.1 hk with ⟨_, hrest⟩
      refine .cons ?_ (ih hrest)
      intro l hl
      rcases List.append_of_mem hl with ⟨front, back, rfl⟩
      have hfront : ∀ m ∈ front, m.start.Passes m.passed m.stop := fun m hm =>
        hrest m (List.mem_append_left _ hm)
      exact (h.front.passes hfront).position_le

end Joined

theorem passes_of_mem_calls (hrun : ∀ i c, ∃ bs, Cursor.Passes c bs (run i c).2)
    (h : k ∈ calls run is c) : k.start.Passes k.passed k.stop := by
  obtain ⟨bs, hp⟩ := hrun k.item k.start
  rw [run_of_mem_calls h] at hp
  rwa [Call.passed_eq hp]

/-- What a call meets stands behind what the calls before it have passed. -/
theorem passes_front (hrun : ∀ i c, ∃ bs, Cursor.Passes c bs (run i c).2)
    {front back : List (Call Cursor ι α)} (h : calls run is c = front ++ k :: back) :
    c.Passes (front.flatMap Call.passed) k.start := by
  have hfront : ∀ l ∈ front, l.start.Passes l.passed l.stop := by
    intro l hl
    have hmem : l ∈ calls run is c := h ▸ List.mem_append_left _ hl
    exact passes_of_mem_calls hrun hmem
  have hjoined := joined_calls run is c
  rw [h] at hjoined
  exact hjoined.front.passes hfront

end

/-! ### The operations of a cursor -/

/-- An operation of a cursor; how many bytes are taken or stepped over may be any integer. -/
inductive Operation where
  | u8
  | u16
  | u32
  | take (n : Int)
  | advance (n : Int)
  deriving DecidableEq, Repr

/-- What an operation gives. -/
inductive Value where
  | number (n : Nat)
  | bytes (bs : Bytes)
  | nothing
  deriving DecidableEq, Repr

namespace Operation

def width : Operation → Int
  | u8 => 1
  | u16 => 2
  | u32 => 4
  | take n => n
  | advance n => n

/-- What an operation gives for the bytes that it passes. -/
def value : Operation → Bytes → Value
  | u8, bs => .number (Bytes.bigEndian bs)
  | u16, bs => .number (Bytes.bigEndian bs)
  | u32, bs => .number (Bytes.bigEndian bs)
  | take _, bs => .bytes bs
  | advance _, _ => .nothing

def run {κ : Type} [Source κ] : Operation → Reader κ Fault Value
  | u8 => do return .number (← Reader.u8)
  | u16 => do return .number (← Reader.u16)
  | u32 => do return .number (← Reader.u32)
  | take n => do return .bytes (← Reader.take n)
  | advance n => do
      Reader.advance n
      return .nothing

theorem refines (o : Operation) : (run o).Refines (run o) := by
  cases o with
  | u8 => exact (Refines.number 1).bind fun n => .pure (Value.number n)
  | u16 => exact (Refines.number 2).bind fun n => .pure (Value.number n)
  | u32 => exact (Refines.number 4).bind fun n => .pure (Value.number n)
  | take n => exact (Refines.take n).bind fun bs => .pure (Value.bytes bs)
  | advance n => exact (Refines.advance n).bind fun _ => .pure Value.nothing

variable {o : Operation} {c : Cursor}

theorem advance_of_negative {n : Int} (h : n < 0) (c : Cursor) :
    Reader.advance n c = (.error (.truncated c.position n c.remaining), c) := by
  cases n with
  | ofNat n => exact absurd h (Int.not_lt.2 (Int.natCast_nonneg n))
  | negSucc n => rfl

theorem run_of_le (h0 : 0 ≤ o.width) (h : o.width ≤ c.remaining) :
    o.run c = (.ok (o.value (c.rest.take o.width.toNat)), c.forward o.width.toNat) := by
  have hnumber : ∀ w : Nat, w ≤ c.remaining →
      number w c = (.ok (Bytes.bigEndian (c.rest.take w)), c.forward w) := fun w hw =>
    (number_eq w c).trans (if_pos hw)
  cases o with
  | u8 => exact bind_eq_of_ok (hnumber 1 (Int.ofNat_le.1 h))
  | u16 => exact bind_eq_of_ok (hnumber 2 (Int.ofNat_le.1 h))
  | u32 => exact bind_eq_of_ok (hnumber 4 (Int.ofNat_le.1 h))
  | take n =>
      obtain ⟨n, rfl⟩ := Int.eq_ofNat_of_zero_le h0
      exact bind_eq_of_ok ((Reader.take_eq n c).trans (if_pos (Int.ofNat_le.1 h)))
  | advance n =>
      obtain ⟨n, rfl⟩ := Int.eq_ofNat_of_zero_le h0
      exact bind_eq_of_ok ((advance_eq n c).trans (if_pos (Int.ofNat_le.1 h)))

theorem run_of_not_le (h : ¬ (0 ≤ o.width ∧ o.width ≤ c.remaining)) :
    o.run c = (.error (.truncated c.position o.width c.remaining), c) := by
  have hadvance : ∀ n : Int, ¬ (0 ≤ n ∧ n ≤ c.remaining) →
      Reader.advance n c = (.error (.truncated c.position n c.remaining), c) := by
    intro n hn
    by_cases h0 : 0 ≤ n
    · obtain ⟨n, rfl⟩ := Int.eq_ofNat_of_zero_le h0
      exact (advance_eq n c).trans (if_neg fun hle => hn ⟨h0, Int.ofNat_le.2 hle⟩)
    · exact advance_of_negative (Int.not_le.1 h0) c
  have htake : ∀ n : Int, ¬ (0 ≤ n ∧ n ≤ c.remaining) →
      Reader.take n c = (.error (.truncated c.position n c.remaining), c) := by
    intro n hn
    rw [take_apply, Cursor.take, ← advance_apply, hadvance n hn]
  have hnumber : ∀ w : Nat, ¬ (0 ≤ (w : Int) ∧ (w : Int) ≤ c.remaining) →
      number w c = (.error (.truncated c.position w c.remaining), c) := by
    intro w hw
    rw [number, htake w hw]
  cases o with
  | u8 => exact bind_eq_of_error (hnumber 1 h)
  | u16 => exact bind_eq_of_error (hnumber 2 h)
  | u32 => exact bind_eq_of_error (hnumber 4 h)
  | take n => exact bind_eq_of_error (htake n h)
  | advance n => exact bind_eq_of_error (hadvance n h)

theorem exists_passes (o : Operation) (c : Cursor) : ∃ bs, c.Passes bs (o.run c).2 := by
  by_cases h : 0 ≤ o.width ∧ o.width ≤ c.remaining
  · rw [run_of_le h.1 h.2]
    exact ⟨_, c.passes_forward (Int.toNat_le.2 h.2)⟩
  · rw [run_of_not_le h]
    exact ⟨[], .refl c⟩

/-- A number that an operation gives has as many digits as the operation has bytes. -/
theorem lt_of_value_eq {bs : Bytes} {n : Nat} (hlen : (bs.length : Int) = o.width)
    (h : o.value bs = .number n) :
    (o = .u8 ∧ n < 0x100) ∨ (o = .u16 ∧ n < 0x10000) ∨ (o = .u32 ∧ n < 0x100000000) := by
  have hlt := Bytes.bigEndian_lt bs
  cases o with
  | u8 =>
      have hbytes : bs.length = 1 := Int.ofNat.inj hlen
      rw [hbytes, Value.number.inj h] at hlt
      exact .inl ⟨rfl, hlt⟩
  | u16 =>
      have hbytes : bs.length = 2 := Int.ofNat.inj hlen
      rw [hbytes, Value.number.inj h] at hlt
      exact .inr (.inl ⟨rfl, hlt⟩)
  | u32 =>
      have hbytes : bs.length = 4 := Int.ofNat.inj hlen
      rw [hbytes, Value.number.inj h] at hlt
      exact .inr (.inr ⟨rfl, hlt⟩)
  | take n => cases h
  | advance n => cases h

/-! ### Any run of them -/

variable {k : Call Cursor Operation Value}

/-- A call that has passed the width of the operation, or has left the cursor alone. -/
structure Served (k : Call Cursor Operation Value) : Prop where
  succeeds_iff : k.succeeds ↔ 0 ≤ k.item.width ∧ k.item.width ≤ k.start.remaining
  /-- On success the bytes that were passed are as many as the width, and the value is theirs. -/
  passes : k.succeeds → k.start.Passes k.passed k.stop ∧ (k.passed.length : Int) = k.item.width ∧
    k.outcome = .ok (k.item.value k.passed)
  stays : ¬ k.succeeds → k.stop = k.start ∧
    k.outcome = .error (.truncated k.start.position k.item.width k.start.remaining)
  number_lt : ∀ n, k.outcome = .ok (.number n) →
    (k.item = .u8 ∧ n < 0x100) ∨ (k.item = .u16 ∧ n < 0x10000) ∨
      (k.item = .u32 ∧ n < 0x100000000)

theorem served_of_run (h : k.item.run k.start = (k.outcome, k.stop)) : Served k := by
  rcases k with ⟨o, c, outcome, d⟩
  dsimp only at h
  by_cases hfits : 0 ≤ o.width ∧ o.width ≤ c.remaining
  · rw [run_of_le hfits.1 hfits.2] at h
    obtain ⟨rfl, rfl⟩ := Prod.mk.inj h
    have hle : o.width.toNat ≤ c.remaining := Int.toNat_le.2 hfits.2
    have hlen : ((c.rest.take o.width.toNat).length : Int) = o.width := by
      rw [List.length_take_of_le hle, Int.toNat_of_nonneg hfits.1]
    have hpasses := c.passes_forward hle
    have hpassed : Call.passed ⟨o, c, .ok (o.value (c.rest.take o.width.toNat)),
        c.forward o.width.toNat⟩ = c.rest.take o.width.toNat := Call.passed_eq hpasses
    refine ⟨iff_of_true rfl hfits, fun _ => ?_, fun hn => (hn rfl).elim, fun n hn => ?_⟩
    · rw [hpassed]
      exact ⟨hpasses, hlen, rfl⟩
    · exact lt_of_value_eq hlen (Except.ok.inj hn)
  · rw [run_of_not_le hfits] at h
    obtain ⟨rfl, rfl⟩ := Prod.mk.inj h
    exact ⟨iff_of_false nofun hfits, nofun, fun _ => ⟨rfl, rfl⟩, nofun⟩

variable {data : Bytes} {base : Int} {ops : List Operation}

/-- The calls of some operations from the start of a buffer. -/
def made (data : Bytes) (base : Int) (ops : List Operation) : List (Call Cursor Operation Value) :=
  calls run ops (.ofBytes data base)

def succeeded (data : Bytes) (base : Int) (ops : List Operation) : List (Call Cursor Operation Value) :=
  (made data base ops).filter Call.succeeds

/-- Where they leave the cursor. -/
def stop (data : Bytes) (base : Int) (ops : List Operation) : Cursor :=
  cursorAfter run ops (.ofBytes data base)

/-- The calls of the operations on a cursor on the buffer itself. -/
structure Buffered (data : Bytes) (base : Int) (ops : List Operation) : Prop where
  made : (calls run ops (ByteCursor.ofBytes data base)).map Call.view = made data base ops
  stop : (cursorAfter run ops (ByteCursor.ofBytes data base)).view = stop data base ops
  beside : ∀ k ∈ calls run ops (ByteCursor.ofBytes data base),
    (ByteCursor.ofBytes data base).Beside k.start ∧ (ByteCursor.ofBytes data base).Beside k.stop
  /-- An operation that fails leaves the cursor as it is, its index included. -/
  stays : ∀ k ∈ calls run ops (ByteCursor.ofBytes data base), ¬ k.succeeds → k.stop = k.start
  /-- The cursor is told by its offset, so that it is left in one state if the offset is one. -/
  determined : ∀ ops' : List Operation,
    Operation.stop data base ops = Operation.stop data base ops' →
    cursorAfter run ops (ByteCursor.ofBytes data base) =
      cursorAfter run ops' (ByteCursor.ofBytes data base)

/-- What a run of operations does on a buffer whose first byte has the offset `base`. -/
structure Accounted (data : Bytes) (base : Int) (ops : List Operation) : Prop where
  /-- Each operation is called once, in turn. -/
  items : (made data base ops).map Call.item = ops
  /-- A call meets what stands behind its position in the buffer. -/
  place : ∀ k ∈ made data base ops, base ≤ k.start.position ∧
    k.start.rest = data.drop (k.start.position - base).toNat
  served : ∀ k ∈ made data base ops, Served k
  contiguous : Joined (.ofBytes data base) (succeeded data base ops) (stop data base ops)
  disjoint : (succeeded data base ops).Pairwise fun k l => k.stop.position ≤ l.start.position
  concatenated : base ≤ (stop data base ops).position ∧
    (stop data base ops).position ≤ base + data.length ∧
    (succeeded data base ops).flatMap Call.passed =
      data.take ((stop data base ops).position - base).toNat
  /-- The sum of the widths of those that succeed tells where the cursor is left. -/
  moved : ∀ width : Int, ((succeeded data base ops).map fun k => k.item.width).sum = width →
    stop data base ops = ⟨base + width, data.drop width.toNat⟩
  /-- If all succeed, the sum of their widths does. -/
  determined : ∀ ops' : List Operation, (∀ k ∈ made data base ops, k.succeeds) →
    (∀ k ∈ made data base ops', k.succeeds) → (ops.map width).sum = (ops'.map width).sum →
    stop data base ops = stop data base ops'
  /-- A cursor on the buffer, with an index and the offset of the first byte, goes the same way. -/
  buffered : Buffered data base ops

theorem served_of_mem (h : k ∈ made data base ops) : Served k := served_of_run (run_of_mem_calls h)

theorem place_of_mem (h : k ∈ made data base ops) : base ≤ k.start.position ∧
    k.start.rest = data.drop (k.start.position - base).toNat := by
  obtain ⟨front, back, hsplit⟩ := List.append_of_mem h
  have hpasses := passes_front exists_passes hsplit
  exact ⟨hpasses.position_le, hpasses.rest_eq_drop⟩

theorem joined_succeeded (data : Bytes) (base : Int) (ops : List Operation) :
    Joined (.ofBytes data base) (succeeded data base ops) (stop data base ops) := by
  refine (joined_calls run ops (.ofBytes data base)).filter fun k hk hfails => ?_
  exact ((served_of_mem hk).stays (by simp [hfails])).1

theorem passes_of_succeeded (h : k ∈ succeeded data base ops) :
    k.start.Passes k.passed k.stop ∧ (k.passed.length : Int) = k.item.width := by
  obtain ⟨hk, hsucceeds⟩ := List.mem_filter.1 h
  obtain ⟨hpasses, hlen, _⟩ := (served_of_mem hk).passes hsucceeds
  exact ⟨hpasses, hlen⟩

theorem passes_stop (data : Bytes) (base : Int) (ops : List Operation) :
    Cursor.Passes (.ofBytes data base) ((succeeded data base ops).flatMap Call.passed)
      (stop data base ops) :=
  (joined_succeeded data base ops).passes fun _ hk => (passes_of_succeeded hk).1

theorem length_flatMap_passed {ks : List (Call Cursor Operation Value)}
    (h : ∀ k ∈ ks, (k.passed.length : Int) = k.item.width) :
    ((ks.flatMap Call.passed).length : Int) = (ks.map fun k => k.item.width).sum := by
  induction ks with
  | nil => rfl
  | cons k ks ih =>
      obtain ⟨hk, hks⟩ := List.forall_mem_cons.1 h
      rw [List.flatMap_cons, List.length_append, List.map_cons, List.sum_cons, ← ih hks, ← hk]
      push_cast
      rfl

theorem stop_eq {w : Int} (h : ((succeeded data base ops).map fun k => k.item.width).sum = w) :
    stop data base ops = ⟨base + w, data.drop w.toNat⟩ := by
  have hpasses := passes_stop data base ops
  have hlen : (((succeeded data base ops).flatMap Call.passed).length : Int) = w :=
    (length_flatMap_passed fun k hk => (passes_of_succeeded hk).2).trans h
  have hposition : (stop data base ops).position = base + w := hpasses.2.trans (congrArg _ hlen)
  have hrest := hpasses.rest_eq_drop
  have hwidth : (stop data base ops).position - base = w := by omega
  change (stop data base ops).rest = data.drop ((stop data base ops).position - base).toNat at hrest
  rw [hwidth] at hrest
  calc stop data base ops = ⟨(stop data base ops).position, (stop data base ops).rest⟩ := rfl
    _ = ⟨base + w, data.drop w.toNat⟩ := by rw [hposition, hrest]

theorem sum_width_of_all (h : ∀ k ∈ made data base ops, k.succeeds) :
    ((succeeded data base ops).map fun k => k.item.width).sum = (ops.map width).sum := by
  have hall : succeeded data base ops = made data base ops := List.filter_eq_self.2 h
  have hitems : (made data base ops).map Call.item = ops := map_item_calls ops _
  calc ((succeeded data base ops).map fun k => k.item.width).sum
      = (((made data base ops).map Call.item).map width).sum := by rw [hall, List.map_map]; rfl
    _ = (ops.map width).sum := by rw [hitems]

theorem buffered (data : Bytes) (base : Int) (ops : List Operation) : Buffered data base ops := by
  obtain ⟨hmade, hbeside⟩ := calls_view refines ops (ByteCursor.ofBytes data base)
  have hstop := fun ops => cursorAfter_view refines ops (ByteCursor.ofBytes data base)
  rw [ByteCursor.view_ofBytes] at hmade
  refine ⟨hmade, ?_, hbeside, ?_, ?_⟩
  · rw [(hstop ops).1, ByteCursor.view_ofBytes]
    rfl
  · intro k hk hfails
    have hview : k.view ∈ made data base ops := by
      rw [made, ← hmade]
      exact List.mem_map_of_mem hk
    have hstays := ((served_of_mem hview).stays hfails).1
    obtain ⟨hstart, hend⟩ := hbeside k hk
    exact (hstart.both hend).eq (congrArg Cursor.position hstays)
  · intro ops' h
    refine ((hstop ops').2.both (hstop ops).2).eq ?_
    have hposition : ∀ ops, (cursorAfter run ops (ByteCursor.ofBytes data base)).position =
        (stop data base ops).position := by
      intro ops
      rw [← ByteCursor.view_position, (hstop ops).1, ByteCursor.view_ofBytes]
      rfl
    rw [hposition, hposition, h]

theorem accounted (data : Bytes) (base : Int) (ops : List Operation) : Accounted data base ops where
  items := map_item_calls ops _
  place _ h := place_of_mem h
  served _ h := served_of_mem h
  contiguous := joined_succeeded data base ops
  disjoint := (joined_succeeded data base ops).pairwise fun _ hk => (passes_of_succeeded hk).1
  concatenated := by
    have hpasses := passes_stop data base ops
    have hend := hpasses.position_add_remaining
    refine ⟨hpasses.position_le, ?_, hpasses.eq_take⟩
    change (stop data base ops).position + _ = base + data.length at hend
    omega
  moved _ h := stop_eq h
  determined ops' h h' hsum := by
    rw [stop_eq (sum_width_of_all h), stop_eq (sum_width_of_all h'), hsum]
  buffered := buffered data base ops

/-- A word that is not there leaves a byte that is, also behind an offset below zero. -/
example : made [7] (-3) [.u16, .take (-1), .u8] =
    [⟨.u16, ⟨-3, [7]⟩, .error (.truncated (-3) 2 1), ⟨-3, [7]⟩⟩,
      ⟨.take (-1), ⟨-3, [7]⟩, .error (.truncated (-3) (-1) 1), ⟨-3, [7]⟩⟩,
      ⟨.u8, ⟨-3, [7]⟩, .ok (.number 7), ⟨-2, []⟩⟩] := rfl

end Operation
end JarRank.ClassFile
