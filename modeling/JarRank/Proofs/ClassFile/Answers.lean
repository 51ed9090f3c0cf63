import JarRank.Proofs.ClassFile.Acceptance

/-!
# What readers answer

The answer of a reader to some bytes at an offset is a result or a fault, whatever stands
behind the bytes. If it is a result, the reader has passed these bytes and nothing else. A
reader that accepts a word of its grammar answers it with a result. Where a computation in
between may fail, the answer is that of the computations alone: readers in sequence answer
as their answers do in sequence, and a table answers as its rows do, one after another.
-/
namespace JarRank.ClassFile

open Layout (word)

namespace Reader

/-- At an offset the reader answers some bytes with a result, and is then behind them, or with a
fault. What stands behind the bytes does not matter. -/
def Answers {ε α : Type} (r : Reader Cursor ε α) (p : Int) (bs : Bytes) (x : Except ε α) : Prop :=
  ∀ rest, (r ⟨p, bs ++ rest⟩).1 = x ∧
    ∀ a, x = .ok a → (r ⟨p, bs ++ rest⟩).2 = ⟨p + bs.length, rest⟩

namespace Answers

variable {ε ε' α β γ : Type} {r : Reader Cursor ε α} {p : Int}

theorem eq_ok {bs : Bytes} {a : α} (h : r.Answers p bs (.ok a)) (rest : Bytes) :
    r ⟨p, bs ++ rest⟩ = (.ok a, ⟨p + bs.length, rest⟩) := Prod.ext (h rest).1 ((h rest).2 a rfl)

theorem of_accepts {G : Bytes → α → Prop} (h : r.Accepts G) {bs : Bytes} {a : α} (hG : G bs a) :
    r.Answers p bs (.ok a) := by
  intro rest
  rw [h.complete hG p rest]
  exact ⟨rfl, fun _ _ => rfl⟩

theorem ofExcept (x : Except ε α) : (Reader.ofExcept x).Answers p [] x := by
  intro rest
  cases x with
  | ok a => exact ⟨rfl, fun _ _ => by simp [Reader.ofExcept, Reader.pure]⟩
  | error e => exact ⟨rfl, fun _ h => by cases h⟩

theorem pure (a : α) : (Pure.pure a : Reader Cursor ε α).Answers p [] (.ok a) := ofExcept (.ok a)

/-- The second reader has to answer only where the first has a result. -/
theorem bind {f : α → Reader Cursor ε β} {g : α → Except ε β} {xs ys : Bytes} {x : Except ε α}
    (hr : r.Answers p xs x) (hf : ∀ a, x = .ok a → (f a).Answers (p + xs.length) ys (g a)) :
    (r >>= f).Answers p (xs ++ ys) (x >>= g) := by
  intro rest
  have hfirst := hr (ys ++ rest)
  rw [List.append_assoc, bind_apply]
  rcases hx : r ⟨p, xs ++ (ys ++ rest)⟩ with ⟨y, d⟩
  rw [hx] at hfirst
  dsimp only at hfirst
  rcases hfirst with ⟨rfl, hd⟩
  cases y with
  | error e => exact ⟨rfl, fun _ h => by cases h⟩
  | ok a =>
      have hsecond := hf a rfl rest
      have hlen : p + ((xs ++ ys).length : Int) = p + xs.length + ys.length := by
        rw [List.length_append]
        push_cast
        omega
      rw [hd a rfl, hlen]
      exact hsecond

/-- Behind a reader that has a result, the next one answers. -/
theorem bind_ok {f : α → Reader Cursor ε β} {xs ys : Bytes} {a : α} {x : Except ε β}
    (hr : r.Answers p xs (.ok a)) (hf : (f a).Answers (p + xs.length) ys x) :
    (r >>= f).Answers p (xs ++ ys) x := by
  apply hr.bind (g := fun _ => x)
  intro b hb
  cases hb
  exact hf

/-- A computation in front of a reader takes no bytes. -/
theorem ofExcept_bind {x : Except ε α} {f : α → Reader Cursor ε β} {g : α → Except ε β} {bs : Bytes}
    (hf : ∀ a, x = .ok a → (f a).Answers p bs (g a)) :
    (Reader.ofExcept x >>= f).Answers p bs (x >>= g) := by
  apply (ofExcept x).bind
  intro a ha
  simpa using hf a ha

/-- What a reader has read is put together without taking more bytes. -/
theorem bind_pure {bs : Bytes} {x : Except ε α} (h : r.Answers p bs x) (f : α → β) :
    (r >>= fun a => Pure.pure (f a)).Answers p bs (x >>= fun a => .ok (f a)) := by
  have hb := h.bind fun a _ => pure (f a)
  rwa [List.append_nil] at hb

theorem mapFault {bs : Bytes} {x : Except ε α} (h : r.Answers p bs x) (f : ε → ε') :
    (r.mapFault f).Answers p bs (x.mapError f) := by
  intro rest
  have hr := h rest
  rw [Reader.mapFault]
  rcases hx : r ⟨p, bs ++ rest⟩ with ⟨y, d⟩
  rw [hx] at hr
  dsimp only at hr
  rcases hr with ⟨rfl, hd⟩
  cases y with
  | error e => exact ⟨rfl, fun _ h => by cases h⟩
  | ok a => exact ⟨rfl, fun _ _ => hd a rfl⟩

theorem times {bytes : β → Bytes} {g : β → Except ε α} {xs : List β}
    (h : ∀ x ∈ xs, ∀ p, r.Answers p (bytes x) (g x)) :
    (Reader.times xs.length r).Answers p (xs.flatMap bytes) (xs.mapM g) := by
  induction xs generalizing p with
  | nil => exact pure []
  | cons x xs ih =>
      rw [List.length_cons, times_succ, List.mapM_cons, List.flatMap_cons]
      apply (h x List.mem_cons_self p).bind
      intro a _
      exact (ih fun y hy => h y (List.mem_cons_of_mem x hy)).bind_pure (a :: ·)

theorem u16 (w : UInt16) : Reader.u16.Answers p (word w) (.ok w.toNat) :=
  of_accepts accepts_u16 ⟨w, rfl, rfl⟩

/-- A count, and as many rows behind it. -/
theorem table {item : Reader Cursor Fault α} {bytes : β → Bytes} {g : β → Except Fault α} {xs : List β}
    (hlen : xs.length < 0x10000) (h : ∀ x ∈ xs, ∀ p, item.Answers p (bytes x) (g x)) :
    (Reader.u16 >>= fun n => Reader.times n item).Answers p (Layout.table bytes xs) (xs.mapM g) := by
  have hw : (UInt16.ofNat xs.length).toNat = xs.length := UInt16.toNat_ofNat_of_lt' hlen
  have hcount := u16 (p := p) (UInt16.ofNat xs.length)
  rw [Layout.word, hw] at hcount
  exact hcount.bind_ok (times h)

end Answers
end Reader
end JarRank.ClassFile
