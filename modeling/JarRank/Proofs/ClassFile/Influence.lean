import JarRank.Proofs.ClassFile.SectionGrammar
import JarRank.Proofs.ClassFile.Trace

/-!
# What has influence on a reading

A reader follows a traced one if, on any two cursors at one offset, it does on the
second what the traced one does on the first, provided that the bytes are the same
wherever the traced one uses them. Then neither the bytes that are skipped nor those
behind the point where the reading stops have any influence.

How many bytes are left matters only to a fault that says that there are too few: where
the traced reader meets no such fault, the second cursor may have more or fewer bytes
left than the first. So one relation covers both a file with other bytes in it and a
file with further bytes behind it.
-/
namespace JarRank.ClassFile

/-- The fault says that there are too few bytes. -/
def Fault.Truncates (e : Fault) : Prop := e.kind = "TRUNCATED"

def StagedFault.Truncates (e : StagedFault) : Prop := e.fault.Truncates

/-- Both sequences have the same bytes where these are used, and the second has one at least for
each mark. -/
def Agree (ms : List Mark) (bs bs' : Bytes) : Prop :=
  ms.length ≤ bs'.length ∧ ∀ i : Nat, ms[i]? = some .used → bs'[i]? = bs[i]?

/-- Only the positions that are marked have to be looked at. -/
instance (ms : List Mark) (bs bs' : Bytes) : Decidable (Agree ms bs bs') :=
  decidable_of_iff
    (ms.length ≤ bs'.length ∧ ∀ i < ms.length, ms[i]? = some .used → bs'[i]? = bs[i]?)
    (and_congr_right fun _ => forall_congr' fun _ =>
      ⟨fun h hi => h (List.getElem?_eq_some_iff.1 hi).1 hi, fun h _ hi => h hi⟩)

namespace Agree

variable {ms ns : List Mark} {bs bs' : Bytes}

theorem refl (h : ms.length ≤ bs.length) : Agree ms bs bs := ⟨h, fun _ _ => rfl⟩

theorem left (h : Agree (ms ++ ns) bs bs') : Agree ms bs bs' := by
  have hl := h.1
  rw [List.length_append] at hl
  refine ⟨by omega, fun i hi => h.2 i ?_⟩
  have hlt : i < ms.length := (List.getElem?_eq_some_iff.1 hi).1
  rw [List.getElem?_append_left hlt]
  exact hi

theorem right (h : Agree (ms ++ ns) bs bs') :
    Agree ns (bs.drop ms.length) (bs'.drop ms.length) := by
  have hl := h.1
  rw [List.length_append] at hl
  constructor
  · rw [List.length_drop]
    omega
  · intro i hi
    rw [List.getElem?_drop, List.getElem?_drop]
    apply h.2
    rw [List.getElem?_append_right (Nat.le_add_right ..), Nat.add_sub_cancel_left]
    exact hi

theorem take (h : Agree ms bs bs') {width : Nat} (hm : ms.length ≤ width) :
    Agree ms (bs.take width) (bs'.take width) := by
  constructor
  · rw [List.length_take]
    exact Nat.le_min.2 ⟨hm, h.1⟩
  · intro i hi
    have hlt : i < ms.length := (List.getElem?_eq_some_iff.1 hi).1
    have hw : i < width := Nat.lt_of_lt_of_le hlt hm
    rw [List.getElem?_take_of_lt hw, List.getElem?_take_of_lt hw]
    exact h.2 i hi

theorem take_eq {width : Nat} (h : Agree (List.replicate width .used) bs bs') :
    bs'.take width = bs.take width := by
  apply List.ext_getElem?
  intro i
  by_cases hi : i < width
  · rw [List.getElem?_take_of_lt hi, List.getElem?_take_of_lt hi]
    apply h.2
    rw [List.getElem?_replicate, if_pos hi]
  · rw [List.getElem?_take_eq_none (Nat.not_lt.1 hi), List.getElem?_take_eq_none (Nat.not_lt.1 hi)]

end Agree

namespace Reader

/-- The next bytes, read by a cursor of their own. -/
def slice {α : Type} (width : Nat) (r : Reader Cursor Fault α) : Reader Cursor Fault α := do
  let offset ← position
  let body ← take width
  ofExcept (r (Cursor.ofBytes body offset)).1

theorem slice_eq {α : Type} (width : Nat) (r : Reader Cursor Fault α) (c : Cursor) : slice width r c =
    if width ≤ c.remaining then ((r (c.slice width)).1, c.forward width)
    else (.error (.truncated c.position width c.remaining), c) := by
  have hs : slice width r c = (take width >>= fun body =>
      Reader.ofExcept (r (Cursor.ofBytes body c.position)).1) c := rfl
  rw [hs, bind_apply, take_eq]
  by_cases h : width ≤ c.remaining
  · rw [if_pos h, if_pos h]
    dsimp only
    change Reader.ofExcept (r (c.slice width)).1 (c.forward width) = _
    cases (r (c.slice width)).1 <;> rfl
  · rw [if_neg h, if_neg h]

end Reader

theorem Cursor.remaining_slice (c : Cursor) {width : Nat} (h : width ≤ c.remaining) :
    (c.slice width).remaining = width := List.length_take_of_le h

/-- Two outcomes are one fault or two results that go together. -/
inductive Ends {ε α β : Type} (R : α → β → Prop) : Except ε α → Except ε β → Prop
  | ok {a : α} {b : β} : R a b → Ends R (.ok a) (.ok b)
  | error (e : ε) : Ends R (.error e) (.error e)

namespace Ends

variable {ε ε' α β : Type} {R : α → β → Prop}

theorem refl (x : Except ε α) : Ends Eq x x := by
  cases x with
  | ok a => exact .ok rfl
  | error e => exact .error e

theorem eq {x y : Except ε α} (h : Ends Eq x y) : x = y := by
  cases h with
  | ok h => rw [h]
  | error e => rfl

end Ends

/-- A reader does what a traced one does, wherever the bytes that this uses are the same; unless
this meets too few bytes and there are not as many left in both. -/
def Follows {ε α β : Type} (R : α → β → Prop) (short : ε → Prop) (t : Traced ε α)
    (r : Reader Cursor ε β) : Prop :=
  ∀ c c' : Cursor, c'.position = c.position → Agree (t.marks c) c.rest c'.rest →
    (Ends R (t.run c).1 (r c').1 ∧ (r c').2 = c'.forward (t.marks c).length) ∨
      (c'.remaining ≠ c.remaining ∧ ∃ e, (t.run c).1 = .error e ∧ short e)

namespace Follows

variable {ε ε' α β γ δ : Type} {short : ε → Prop} {R : α → β → Prop} {S : γ → δ → Prop}

theorem pure {a : α} {b : β} (h : R a b) : Follows R short (Pure.pure a) (Pure.pure b) := by
  intro c c' _ _
  exact .inl ⟨.ok h, (Cursor.forward_zero c').symm⟩

theorem ofExcept {x : Except ε α} {y : Except ε β} (h : Ends R x y) :
    Follows R short (Traced.ofExcept x) (Reader.ofExcept y) := by
  intro c c' _ _
  cases h with
  | ok h => exact .inl ⟨.ok h, (Cursor.forward_zero c').symm⟩
  | error e => exact .inl ⟨.error e, (Cursor.forward_zero c').symm⟩

theorem position : Follows Eq short Traced.position (Reader.position : Reader Cursor ε Int) := by
  intro c c' hp _
  exact .inl ⟨.ok hp.symm, (Cursor.forward_zero c').symm⟩

theorem bind {t : Traced ε α} {r : Reader Cursor ε β} {f : α → Traced ε γ} {g : β → Reader Cursor ε δ}
    (ht : Follows R short t r) (hf : ∀ a b, R a b → Follows S short (f a) (g b)) :
    Follows S short (t >>= f) (r >>= g) := by
  intro c c' hp ha
  have hmarks : (t >>= f).marks c = t.marks c ++ Traced.marksBehind f (t.run c) := rfl
  have hrun : (t >>= f).run c = (t.run >>= fun a => (f a).run) c := rfl
  have hstop := t.stops c
  rw [hmarks] at ha ⊢
  rw [hrun, Reader.bind_apply, Reader.bind_apply]
  have hfirst := ht c c' hp ha.left
  have hrest := ha.right
  generalize t.run c = x at hfirst hstop hrest ⊢
  generalize r c' = y at hfirst ⊢
  obtain ⟨x, d⟩ := x
  obtain ⟨y, d'⟩ := y
  dsimp only at hfirst hstop
  rcases hfirst with ⟨he, rfl⟩ | ⟨hne, e, rfl, hshort⟩
  · cases he with
    | error e =>
      refine .inl ⟨.error e, ?_⟩
      simp [Traced.marksBehind]
    | @ok a b hab =>
      subst hstop
      have hpos : (c'.forward (t.marks c).length).position =
          (c.forward (t.marks c).length).position := by
        simp [Cursor.forward, hp]
      -- The second readers begin at one offset, and as many bytes are left as before less the same.
      rcases hf a b hab _ _ hpos hrest with ⟨hend, hd⟩ | ⟨hne, hshort⟩
      · refine .inl ⟨hend, ?_⟩
        rw [List.length_append, ← Cursor.forward_forward]
        exact hd
      · refine .inr ⟨?_, hshort⟩
        intro hr
        apply hne
        rw [Cursor.remaining_forward, Cursor.remaining_forward, hr]
  · exact .inr ⟨hne, e, rfl, hshort⟩

theorem bind_eq {t : Traced ε α} {r : Reader Cursor ε α} {f : α → Traced ε γ} {g : α → Reader Cursor ε δ}
    (ht : Follows Eq short t r) (hf : ∀ a, Follows S short (f a) (g a)) :
    Follows S short (t >>= f) (r >>= g) := by
  apply ht.bind
  intro a b hab
  subst hab
  exact hf a

theorem mapFault {short' : ε' → Prop} {t : Traced ε α} {r : Reader Cursor ε β} {f : ε → ε'}
    (ht : Follows R short t r) (hf : ∀ e, short e → short' (f e)) :
    Follows R short' (t.mapFault f) (r.mapFault f) := by
  intro c c' hp ha
  have hfirst := ht c c' hp ha
  have hmarks : (t.mapFault f).marks c = t.marks c := rfl
  rw [hmarks]
  simp only [Traced.mapFault, Reader.mapFault]
  generalize t.run c = x at hfirst ⊢
  generalize r c' = y at hfirst ⊢
  obtain ⟨x, d⟩ := x
  obtain ⟨y, d'⟩ := y
  rcases hfirst with ⟨he, hd'⟩ | ⟨hne, e, he, hshort⟩
  · cases he with
    | error e => exact .inl ⟨.error (f e), hd'⟩
    | ok h => exact .inl ⟨.ok h, hd'⟩
  · dsimp only at he
    subst he
    exact .inr ⟨hne, f e, rfl, hf e hshort⟩

theorem times {t : Traced ε α} {r : Reader Cursor ε α} (h : Follows Eq short t r) (n : Nat) :
    Follows Eq short (Traced.times t n) (Reader.times n r) := by
  induction n with
  | zero => exact Follows.pure rfl
  | succ n ih =>
    rw [Reader.times_succ]
    apply h.bind_eq
    intro a
    apply ih.bind_eq
    intro as
    exact Follows.pure rfl

section
variable {width : Nat} {marks : Cursor → List Mark}
variable {x : Cursor → Except Fault α} {y : Cursor → Except Fault β} {r : Reader Cursor Fault β}

/-- Where both cursors have so many bytes left, only what these bytes say can differ. -/
theorem piece (hmarks : ∀ c, (marks c).length = width)
    (hr : ∀ c, r c = if width ≤ c.remaining then (y c, c.forward width)
      else (.error (.truncated c.position width c.remaining), c))
    (h : ∀ c c' : Cursor, c'.position = c.position → width ≤ c.remaining → width ≤ c'.remaining →
      Agree (marks c) c.rest c'.rest → Ends R (x c) (y c')) :
    Follows R Fault.Truncates (Traced.piece width marks hmarks x) r := by
  intro c c' hp ha
  rw [hr c']
  simp only [Traced.piece] at ha ⊢
  by_cases hc : width ≤ c.remaining
  · have hc' : width ≤ c'.remaining := by
      have hl := ha.1
      rw [if_pos hc, hmarks] at hl
      exact hl
    rw [if_pos hc] at ha
    rw [if_pos hc, if_pos hc', if_pos hc, hmarks]
    exact .inl ⟨h c c' hp hc hc' ha, rfl⟩
  · rw [if_neg hc, if_neg hc]
    by_cases hrem : c'.remaining = c.remaining
    · rw [hrem, if_neg hc, hp]
      exact .inl ⟨.error _, (Cursor.forward_zero c').symm⟩
    · exact .inr ⟨hrem, _, rfl, rfl⟩

end

theorem skip (n : Nat) : Follows Eq Fault.Truncates (Traced.skip n) (Reader.advance n) := by
  apply piece (fun _ => List.length_replicate) (Reader.advance_eq n)
  intro c c' _ _ _ _
  exact .ok rfl

theorem number (width : Nat) :
    Follows Eq Fault.Truncates (Traced.number .used width) (Reader.number width) := by
  apply piece (fun _ => List.length_replicate) (Reader.number_eq width)
  intro c c' _ _ _ ha
  exact .ok (congrArg Bytes.bigEndian ha.take_eq.symm)

/-- Of a number that is skipped, nothing is known. -/
theorem skippedNumber (width : Nat) : Follows (fun _ _ => True) Fault.Truncates
    (Traced.number .skipped width) (Reader.number width) := by
  apply piece (fun _ => List.length_replicate) (Reader.number_eq width)
  intro c c' _ _ _ _
  exact .ok trivial

theorem take (width : Nat) : Follows Eq Fault.Truncates (Traced.take width) (Reader.take width) := by
  apply piece (fun _ => List.length_replicate) (Reader.take_eq width)
  intro c c' _ _ _ ha
  exact .ok ha.take_eq.symm

theorem u16 : Follows Eq Fault.Truncates (Traced.number .used 2) Reader.u16 := number 2

theorem u32 : Follows Eq Fault.Truncates (Traced.number .used 4) Reader.u32 := number 4

theorem skippedWord :
    Follows (fun _ _ => True) Fault.Truncates (Traced.number .skipped 2) Reader.u16 := skippedNumber 2

/-- Both slices have the same length, so that inside them no fault depends on what is left. -/
theorem slice {t : Traced Fault α} {r : Reader Cursor Fault β} (h : Follows R Fault.Truncates t r)
    (width : Nat) : Follows R Fault.Truncates (Traced.slice width t) (Reader.slice width r) := by
  apply piece _ (Reader.slice_eq width r)
  intro c c' hp hc hc' ha
  have hlen : (t.marks (c.slice width)).length ≤ width :=
    Nat.le_trans (t.length_marks_le _) (c.remaining_slice_le width)
  have hrem : (c'.slice width).remaining = (c.slice width).remaining := by
    rw [c.remaining_slice hc, c'.remaining_slice hc']
  rcases h (c.slice width) (c'.slice width) hp (ha.left.take hlen) with ⟨hend, _⟩ | ⟨hne, _⟩
  · exact hend
  · exact (hne hrem).elim

end Follows

/-! ### The table of constants -/

/-- What of a constant can be told by resolving references: all but the indices of a pair. -/
def Constant.visible : Constant → Constant
  | .nameAndType _ _ => .nameAndType 0 0
  | k => k

theorem Constant.kind_visible (k : Constant) : k.visible.kind = k.kind := by
  cases k <;> rfl

namespace Pool

def visible (p : Pool) : Pool := ⟨p.slots.map (Option.map Constant.visible)⟩

theorem find_visible (p : Pool) (i : Int) : p.visible.find i = (p.find i).map Constant.visible := by
  unfold find visible
  by_cases hi : i ≤ 0
  · rw [if_pos hi, if_pos hi]
    rfl
  · rw [if_neg hi, if_neg hi, Array.getElem?_map]
    rcases p.slots[i.toNat]? with _ | _ | k <;> rfl

theorem text_visible (p : Pool) (i : Int) : p.visible.text i = p.text i := by
  unfold text
  rw [find_visible]
  rcases p.find i with _ | k
  · rfl
  · cases k <;> rfl

theorem className_visible (p : Pool) (i : Int) : p.visible.className i = p.className i := by
  unfold className
  rw [find_visible]
  rcases p.find i with _ | k
  · rfl
  · cases k with
    | classRef n => exact text_visible p n
    | _ => rfl

variable {p q : Pool}

theorem text_congr (h : p.visible = q.visible) (i : Int) : p.text i = q.text i := by
  rw [← text_visible p, h, text_visible]

theorem className_congr (h : p.visible = q.visible) (i : Int) : p.className i = q.className i := by
  rw [← className_visible p, h, className_visible]

theorem size_congr (h : p.visible = q.visible) : p.slots.size = q.slots.size := by
  have hs := congrArg (fun p : Pool => p.slots.size) h
  simpa [visible] using hs

theorem visible_push (h : p.visible = q.visible) {k l : Option Constant}
    (hk : k.map Constant.visible = l.map Constant.visible) :
    (Pool.mk (p.slots.push k)).visible = (Pool.mk (q.slots.push l)).visible := by
  have hs : p.slots.map (Option.map Constant.visible) = q.slots.map (Option.map Constant.visible) :=
    congrArg Pool.slots h
  simp only [visible, Array.map_push, hs, hk]

end Pool

namespace Follows

/-- Constants that look the same, whichever references are resolved. -/
def LookSame (k l : Constant) : Prop := k.visible = l.visible

theorem payload (kind : Kind) :
    Follows LookSame Fault.Truncates (Traced.payload kind) (Pool.readPayload kind) := by
  cases kind with
  | utf8 =>
    apply u16.bind_eq
    intro length
    apply (take length).bind_eq
    intro raw
    exact Follows.pure rfl
  | classRef =>
    apply u16.bind_eq
    intro n
    exact Follows.pure rfl
  | nameAndType =>
    apply skippedWord.bind
    intro n n' _
    apply skippedWord.bind
    intro d d' _
    exact Follows.pure rfl
  | payload q =>
    apply (skip q.width).bind_eq
    intro _
    exact Follows.pure rfl

theorem constant (index : Nat) :
    Follows LookSame Fault.Truncates (Traced.constant index) (Pool.readConstant index) := by
  apply position.bind_eq
  intro offset
  apply (number 1).bind_eq
  intro tag
  cases Kind.ofTag? tag with
  | none => exact Follows.ofExcept (.error _)
  | some kind => exact payload kind

theorem LookSame.kind_eq {k l : Constant} (h : LookSame k l) : k.kind = l.kind := by
  rw [← k.kind_visible, ← l.kind_visible, h]

theorem fill (left : Nat) (reserved : Bool) {slots slots' : Array (Option Constant)}
    (h : (Pool.mk slots).visible = (Pool.mk slots').visible) :
    Follows (fun p q => p.visible = q.visible) Fault.Truncates
      (Traced.fill left reserved slots) (Pool.fill left reserved slots') := by
  induction left generalizing reserved slots slots' with
  | zero =>
    cases reserved with
    | false => exact Follows.pure h
    | true => exact Follows.pure (Pool.visible_push h rfl)
  | succ left ih =>
    cases reserved with
    | true => exact ih false (Pool.visible_push h rfl)
    | false =>
      have hsize : slots.size = slots'.size := Pool.size_congr h
      rw [Pool.fill_succ, ← hsize]
      apply (constant slots.size).bind
      intro k l hkl
      have hsame : (some k).map Constant.visible = (some l).map Constant.visible :=
        congrArg some hkl
      have hpush := Pool.visible_push h hsame
      rw [← hkl.kind_eq]
      exact ih k.kind.isWide hpush

theorem pool : Follows (fun p q => p.visible = q.visible) Fault.Truncates Traced.pool Pool.read := by
  apply u16.bind_eq
  intro declared
  exact fill (declared - 1) false rfl

/-! ### The sections behind it -/

theorem header {p q : Pool} (h : p.visible = q.visible) :
    Follows (fun x y => x.className = y.className) Fault.Truncates
      (Traced.header p) (Section.header q) := by
  apply skippedWord.bind
  intro flags flags' _
  apply u16.bind_eq
  intro this
  apply skippedWord.bind
  intro super super' _
  rw [Pool.className_congr h this]
  apply (Follows.ofExcept (.refl _)).bind_eq
  intro name
  exact Follows.pure rfl

theorem interfaces : Follows Eq Fault.Truncates Traced.interfaces Section.interfaces := by
  apply u16.bind_eq
  intro count
  apply (skip (2 * count)).bind_eq
  intro _
  exact Follows.pure rfl

theorem anyAttribute : Follows Eq Fault.Truncates Traced.anyAttribute Section.anyAttribute := by
  apply (skip 2).bind_eq
  intro _
  apply u32.bind_eq
  intro length
  exact skip length

theorem attributes : Follows Eq Fault.Truncates Traced.attributes Section.attributes := by
  apply u16.bind_eq
  intro count
  apply (anyAttribute.times count).bind_eq
  intro _
  exact Follows.pure rfl

theorem field : Follows Eq Fault.Truncates Traced.field Section.field := by
  apply (skip 6).bind_eq
  intro _
  apply attributes.bind_eq
  intro _
  exact Follows.pure rfl

theorem fields : Follows Eq Fault.Truncates Traced.fields Section.fields := by
  apply u16.bind_eq
  intro count
  apply (field.times count).bind_eq
  intro _
  exact Follows.pure rfl

theorem codeLength : Follows Eq Fault.Truncates Traced.codeLength Section.codeLength := by
  apply (skip 2).bind_eq
  intro _
  apply (skip 2).bind_eq
  intro _
  exact u32

theorem methodAttribute {p q : Pool} (h : p.visible = q.visible) (code : String) :
    Follows Eq Fault.Truncates (Traced.methodAttribute p code) (Section.methodAttribute q code) := by
  rw [Section.methodAttribute_eq]
  apply u16.bind_eq
  intro nameIndex
  apply u32.bind_eq
  intro length
  rw [Pool.text_congr h nameIndex]
  apply (Follows.ofExcept (.refl _)).bind_eq
  intro name
  unfold Section.attributeBody
  by_cases hname : name = code
  · rw [if_pos hname, if_pos hname]
    have hbody : Section.codeBody length = Reader.slice length Section.codeLength >>= fun size =>
        Pure.pure (some size) := by
      simp only [Section.codeBody, Reader.slice, bind_assoc]
    rw [hbody]
    apply (codeLength.slice length).bind_eq
    intro size
    exact Follows.pure rfl
  · rw [if_neg hname, if_neg hname]
    apply (skip length).bind_eq
    intro _
    exact Follows.pure rfl

theorem methodAttributes {p q : Pool} (h : p.visible = q.visible) (code : String) :
    Follows Eq Fault.Truncates (Traced.methodAttributes p code)
      (Section.methodAttributes q code) := by
  apply u16.bind_eq
  intro count
  apply ((methodAttribute h code).times count).bind_eq
  intro sizes
  exact Follows.pure rfl

theorem method {p q : Pool} (h : p.visible = q.visible) (code : String) :
    Follows Eq Fault.Truncates (Traced.method p code) (Section.method q code) := by
  apply (skip 2).bind_eq
  intro _
  apply u16.bind_eq
  intro nameIndex
  apply u16.bind_eq
  intro descriptorIndex
  rw [Pool.text_congr h nameIndex]
  apply (Follows.ofExcept (.refl _)).bind_eq
  intro name
  rw [Pool.text_congr h descriptorIndex]
  apply (Follows.ofExcept (.refl _)).bind_eq
  intro descriptor
  apply (methodAttributes h code).bind_eq
  intro size
  exact Follows.pure rfl

theorem methods {p q : Pool} (h : p.visible = q.visible) (code : String) :
    Follows Eq Fault.Truncates (Traced.methods p code) (Section.methods q code) := by
  apply u16.bind_eq
  intro count
  exact (method h code).times count

/-! ### The whole file -/

theorem magic : Follows Eq Fault.Truncates Traced.magic Summary.readMagic := by
  apply u32.bind_eq
  intro observed
  by_cases h : observed = ClassFile.magic
  · rw [if_pos h, if_pos h]
    exact Follows.pure rfl
  · rw [if_neg h, if_neg h]
    exact Follows.ofExcept (.error _)

theorem version : Follows Eq Fault.Truncates Traced.version Summary.readVersion := by
  apply u16.bind_eq
  intro minor
  apply u16.bind_eq
  intro major
  exact Follows.pure rfl

theorem staged {α β : Type} {R : α → β → Prop} {t : Traced Fault α} {r : Reader Cursor Fault β}
    (h : Follows R Fault.Truncates t r) (stage : Stage) :
    Follows R StagedFault.Truncates (t.mapFault (StagedFault.mk stage))
      (r.mapFault (StagedFault.mk stage)) := h.mapFault fun _ he => he

theorem summary (code : String) :
    Follows Eq StagedFault.Truncates (Traced.summary code) (Summary.read code) := by
  apply (magic.staged .magic).bind_eq
  intro _
  apply (version.staged .version).bind_eq
  intro v
  apply (pool.staged .pool).bind
  intro p q hpq
  apply ((header hpq).staged .header).bind
  intro h h' hname
  apply (interfaces.staged .interfaces).bind_eq
  intro _
  apply (fields.staged .fields).bind_eq
  intro _
  apply ((methods hpq code).staged .methods).bind_eq
  intro ms
  apply (attributes.staged .attributes).bind_eq
  intro _
  apply Follows.pure
  rw [hname]

end Follows
end JarRank.ClassFile
