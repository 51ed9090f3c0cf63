import JarRank.Proofs.ClassFile.FaultTruth

/-!
# Two walks over one table of attributes

The attributes of a method are read one by one, each with its name and, if it is the code, with
its body. Those of a field are stepped over. Both walks take a row of the table for the same bytes,
so that behind the same rows they stand at the same place.

What is read of a row can only stop the reading. So the walk that reads ends where the other one
does, or it stops at a name that does not resolve or in a body that is too short for code; and where
too few bytes are left for the table, both fail. If nothing was at fault before that point, they
fail alike.
-/
namespace JarRank.ClassFile

open Layout (word table)

namespace Reader

variable {α β : Type}

theorem advance_eq_take (n : Int) (c : Cursor) :
    advance n c = ((take n c).1.map fun _ => (), (take n c).2) := by
  rw [take_apply, Cursor.take, advance_apply]
  rcases c.advance n with ⟨_ | _, d⟩ <;> rfl

/-- A number is read by moving over its bytes. -/
theorem advance_eq_number (width : Nat) (c : Cursor) :
    advance width c = ((number width c).1.map fun _ => (), (number width c).2) := by
  rw [advance_eq_take, number]
  rcases take width c with ⟨_ | _, d⟩ <;> rfl

/-- What moving over bytes has in common with a reader that gives something else. -/
theorem eq_error_of_advance {r : Reader Cursor Fault α} {n : Int} {c d : Cursor} {e : Fault}
    (hr : advance n c = ((r c).1.map fun _ => (), (r c).2)) (h : advance n c = (.error e, d)) :
    r c = (.error e, d) := by
  rw [hr] at h
  rcases hc : r c with ⟨e' | a, d'⟩ <;> rw [hc] at h <;> cases h
  rfl

theorem exists_eq_ok_of_advance {r : Reader Cursor Fault α} {n : Int} {c d : Cursor}
    (hr : advance n c = ((r c).1.map fun _ => (), (r c).2)) (h : advance n c = (.ok (), d)) :
    ∃ a, r c = (.ok a, d) := by
  rw [hr] at h
  rcases hc : r c with ⟨e' | a, d'⟩ <;> rw [hc] at h <;> cases h
  exact ⟨a, rfl⟩

/-- Behind words that are all taken the others are read, and a fault is theirs. -/
theorem times_behind {item : Reader Cursor Fault α} {bytes : β → Bytes} {front : List β} {c c' : Cursor}
    (hi : ∀ x ∈ front, ∀ d d' : Cursor, d.Passes (bytes x) d' → ∃ a, item d = (.ok a, d'))
    (hp : c.Passes (front.flatMap bytes) c') (n : Nat) :
    ∃ as, times (front.length + n) item c =
      ((times n item c').1.map (as ++ ·), (times n item c').2) := by
  induction front generalizing c with
  | nil =>
      obtain rfl : c' = c := by simpa using hp
      refine ⟨[], ?_⟩
      rw [List.length_nil, Nat.zero_add]
      rcases times n item c' with ⟨_ | _, _⟩ <;> rfl
  | cons x front ih =>
      rcases List.forall_mem_cons.1 hi with ⟨hx, hi⟩
      rw [List.flatMap_cons] at hp
      rcases Cursor.Passes.append_iff.1 hp with ⟨c₁, hp, hp'⟩
      rcases hx c c₁ hp with ⟨a, ha⟩
      rcases ih hi hp' with ⟨as, hrest⟩
      refine ⟨a :: as, ?_⟩
      rw [List.length_cons, Nat.succ_add, times_succ, bind_eq_of_ok ha, bind_apply, hrest]
      rcases times n item c' with ⟨_ | _, _⟩ <;> rfl

theorem times_eq_error_behind {item : Reader Cursor Fault α} {bytes : β → Bytes} {front : List β}
    {c c' d : Cursor} {e : Fault} {n : Nat}
    (hi : ∀ x ∈ front, ∀ d d' : Cursor, d.Passes (bytes x) d' → ∃ a, item d = (.ok a, d'))
    (hp : c.Passes (front.flatMap bytes) c') (hn : front.length < n) (h : item c' = (.error e, d)) :
    times n item c = (.error e, d) := by
  obtain ⟨k, rfl⟩ : ∃ k, n = front.length + (k + 1) := ⟨n - front.length - 1, by omega⟩
  have hfirst : times (k + 1) item c' = (.error e, d) := by
    rw [times_succ]
    exact bind_eq_of_error h
  rcases times_behind hi hp (k + 1) with ⟨as, hbehind⟩
  rw [hbehind, hfirst]
  rfl

end Reader

open Reader

namespace Section

variable {p : Pool} {code : String} {c c' d : Cursor} {a : Attribute} {e : Fault}

/-- An attribute of the table at a cursor is due, behind the count and those before it. -/
def DueAt (c c' : Cursor) : Prop :=
  ∃ (count : UInt16) (front : List Attribute), front.length < count.toNat ∧
    (∀ a ∈ front, a.Fits) ∧ c.Passes (word count ++ front.flatMap Attribute.bytes) c'

/-- The name index and the length of an attribute stand between two cursors. -/
def HeadedBy (c d : Cursor) (nameIndex : UInt16) (length : Nat) : Prop :=
  length < 0x100000000 ∧ c.Passes (word nameIndex ++ Bytes.ofNumber 4 length) d

/-- An attribute of the table at a cursor is at fault, where a name does not resolve or a body is
too short for code; the fault is met behind the header in the one case and behind the body in the
other. -/
inductive Misread (p : Pool) (code : String) (c : Cursor) : Fault → Cursor → Prop
  | name (c' d : Cursor) (nameIndex : UInt16) (length : Nat) (found : Finding) : DueAt c c' →
      HeadedBy c' d nameIndex length → p.Lacks nameIndex.toNat .utf8 found →
      Misread p code c (.badReference nameIndex.toNat .utf8 found) d
  | body (c' d : Cursor) (a : Attribute) (k needed : Nat) : DueAt c c' → a.Fits →
      c'.Passes a.bytes d → p.HasText a.nameIndex.toNat code → a.body.length < 8 →
      k ≤ a.body.length → a.body.length - k < needed →
      Misread p code c (.truncated (d.position - a.body.length + k) needed (a.body.length - k)) d

/-- All names of the table at a cursor resolve whose headers end no later than another cursor. -/
def NamesResolve (p : Pool) (c d : Cursor) : Prop :=
  ∀ (c₁ c₂ : Cursor) (nameIndex : UInt16) (length : Nat), DueAt c c₁ →
    HeadedBy c₁ c₂ nameIndex length → c₂.position ≤ d.position → ∃ s, p.HasText nameIndex.toNat s

/-- All code of the table at a cursor declares a length if it ends no later than another cursor. -/
def CodeDeclares (p : Pool) (code : String) (c d : Cursor) : Prop :=
  ∀ (c₁ c₂ : Cursor) (a : Attribute), DueAt c c₁ → a.Fits → c₁.Passes a.bytes c₂ →
    c₂.position ≤ d.position → p.HasText a.nameIndex.toNat code → 8 ≤ a.body.length

/-- The body is passed over as it was declared, whether or not it is read. -/
theorem attributeBody_of_passes {body : Bytes} (name : String) (hp : c.Passes body d) :
    attributeBody code body.length name c =
      (if name = code then (codeLength (Cursor.ofBytes body c.position)).1.map some else .ok none,
        d) := by
  rcases hp.exists_append with ⟨q, rest, rfl, rfl⟩
  unfold attributeBody
  by_cases hname : name = code
  · rw [if_pos hname, if_pos hname]
    have htake : take body.length (⟨q, body ++ rest⟩ : Cursor) = (.ok body, ⟨q + body.length, rest⟩) :=
      take_append rfl rest q
    refine (bind_eq_of_ok (r := take body.length) htake).trans ?_
    cases (codeLength (Cursor.ofBytes body q)).1 <;> rfl
  · rw [if_neg hname, if_neg hname]
    exact bind_eq_of_ok (advance_append rfl rest q)

theorem methodAttribute_of_headedBy {nameIndex : UInt16} {length : Nat}
    (hp : HeadedBy c d nameIndex length) : methodAttribute p code c =
      (Reader.ofExcept (p.text nameIndex.toNat) >>= attributeBody code length) d := by
  rcases hp with ⟨hlen, hp⟩
  rcases Cursor.Passes.append_iff.1 hp with ⟨c₁, hp, hp'⟩
  have hname : u16 c = (.ok nameIndex.toNat, c₁) :=
    (accepts_u16 c c₁ _).2 ⟨_, ⟨nameIndex, rfl, rfl⟩, hp⟩
  have hlength : u32 c₁ = (.ok length, d) := (accepts_u32 c₁ d _).2 ⟨_, ⟨hlen, rfl⟩, hp'⟩
  rw [methodAttribute_eq, bind_eq_of_ok hname, bind_eq_of_ok hlength]

theorem exists_headedBy (hf : a.Fits) (hp : c.Passes a.bytes d) :
    ∃ c₁, HeadedBy c c₁ a.nameIndex a.body.length ∧ c₁.Passes a.body d := by
  rcases Cursor.Passes.append_iff.1 hp with ⟨c₁, hp, hp'⟩
  exact ⟨c₁, ⟨hf, hp⟩, hp'⟩

/-- Where the name of an attribute resolves, the reading stops behind its declared length. -/
theorem methodAttribute_of_passes {s : String} (hf : a.Fits) (hp : c.Passes a.bytes d)
    (hs : p.HasText a.nameIndex.toNat s) : methodAttribute p code c =
      (if s = code then
        (codeLength (Cursor.ofBytes a.body (d.position - a.body.length))).1.map some
      else .ok none, d) := by
  rcases exists_headedBy hf hp with ⟨c₁, hhead, hbody⟩
  have hposition : c₁.position = d.position - a.body.length := by
    rw [hbody.2]
    omega
  rw [methodAttribute_of_headedBy hhead, Pool.text_eq_ok_iff.2 hs, ← hposition]
  exact attributeBody_of_passes s hbody

/-- Whether an attribute is read without a fault. -/
def Readable (p : Pool) (code : String) (a : Attribute) : Prop :=
  (∃ s, p.HasText a.nameIndex.toNat s) ∧ (p.HasText a.nameIndex.toNat code → 8 ≤ a.body.length)

theorem exists_methodAttribute_of_readable (hf : a.Fits) (h : Readable p code a)
    (hp : c.Passes a.bytes d) : ∃ size, methodAttribute p code c = (.ok size, d) := by
  rcases h with ⟨⟨s, hs⟩, hcode⟩
  rw [methodAttribute_of_passes hf hp hs]
  by_cases hsc : s = code
  · subst hsc
    rw [if_pos rfl, codeLength_eq_ok_iff.2 ⟨hcode hs, rfl⟩]
    exact ⟨_, rfl⟩
  · rw [if_neg hsc]
    exact ⟨none, rfl⟩

/-- An attribute that cannot be read gives a fault of its own. -/
theorem exists_misread (hf : a.Fits) (h : ¬ Readable p code a) (hdue : DueAt c c')
    (hp : c'.Passes a.bytes d) :
    ∃ e d', methodAttribute p code c' = (.error e, d') ∧ Misread p code c e d' := by
  cases ht : p.text a.nameIndex.toNat with
  | error e =>
      rcases exists_headedBy hf hp with ⟨c₁, hhead, _⟩
      rcases Pool.text_eq_error_iff.1 ht with ⟨found, hl, rfl⟩
      refine ⟨_, c₁, ?_, .name c' c₁ a.nameIndex a.body.length found hdue hhead hl⟩
      rw [methodAttribute_of_headedBy hhead, ht]
      rfl
  | ok s =>
      have hs := Pool.text_eq_ok_iff.1 ht
      have hshort : p.HasText a.nameIndex.toNat code ∧ a.body.length < 8 := by
        by_contra hn
        exact h ⟨⟨s, hs⟩, fun hcode => Nat.not_lt.1 fun hlt => hn ⟨hcode, hlt⟩⟩
      rcases hshort with ⟨hcode, hlt⟩
      rw [methodAttribute_of_passes hf hp hcode, if_pos rfl]
      cases hlength : (codeLength (Cursor.ofBytes a.body (d.position - a.body.length))).1 with
      | ok n =>
          have h8 := (codeLength_eq_ok_iff.1 hlength).1
          omega
      | error e =>
          rcases codeLength_eq_error hlength with ⟨_, k, needed, hk, hneeded, rfl⟩
          exact ⟨_, d, rfl, .body c' d a k needed hdue hf hp hcode hlt hk hneeded⟩

/-- An attribute that ends before a place up to which nothing is at fault can be read. -/
theorem readable_of_dueAt (hdue : DueAt c c') (hf : a.Fits) {c₁ : Cursor}
    (hp : c'.Passes a.bytes c₁) (hend : c₁.position ≤ d.position) (hnames : NamesResolve p c d)
    (hcode : CodeDeclares p code c d) : Readable p code a := by
  rcases exists_headedBy hf hp with ⟨c₂, hhead, hbody⟩
  have hposition := hbody.2
  exact ⟨hnames c' c₂ a.nameIndex a.body.length hdue hhead (by omega),
    hcode c' c₁ a hdue hf hp hend⟩

/-- Where stepping over an attribute fails, reading it fails in the same way, unless its name was
read before and does not resolve. -/
theorem methodAttribute_eq_error_of_anyAttribute (h : anyAttribute c = (.error e, d))
    (hnames : ∀ (c₁ : Cursor) (nameIndex : UInt16) (length : Nat),
      HeadedBy c c₁ nameIndex length → c₁.position ≤ d.position → ∃ s, p.HasText nameIndex.toNat s) :
    methodAttribute p code c = (.error e, d) := by
  have hstep : (anyAttribute : Reader Cursor Fault Unit) =
      advance 2 >>= fun _ => u32 >>= fun n => advance n := rfl
  rw [hstep] at h
  rcases bind_eq_error_iff.1 h with h | ⟨_, c₁, hword, h⟩
  · have hname : u16 c = (.error e, d) := eq_error_of_advance (advance_eq_number 2 c) h
    rw [methodAttribute_eq]
    exact bind_eq_of_error hname
  · have hname : ∃ n, u16 c = (.ok n, c₁) := exists_eq_ok_of_advance (advance_eq_number 2 c) hword
    rcases hname with ⟨_, hname⟩
    rcases bind_eq_error_iff.1 h with h | ⟨length, c₂, hlength, h⟩
    · rw [methodAttribute_eq, bind_eq_of_ok hname]
      exact bind_eq_of_error h
    · rcases accepts_u16.sound hname with ⟨_, ⟨nameIndex, _, rfl⟩, hp⟩
      rcases accepts_u32.sound hlength with ⟨_, ⟨hlen, rfl⟩, hp'⟩
      have hhead : HeadedBy c c₂ nameIndex length := ⟨hlen, hp.trans hp'⟩
      -- Moving over the body fails where it stands, right behind the header.
      have hd : d = c₂ := by
        rcases advance_fails length c₂ d e h with ⟨bs, hp, rfl, -⟩
        exact Cursor.Passes.nil_iff.1 hp
      rcases hnames c₂ nameIndex length hhead (hd ▸ Int.le_refl _) with ⟨s, hs⟩
      have hbody : attributeBody code length s c₂ = (.error e, d) := by
        unfold attributeBody
        by_cases hsc : s = code
        · rw [if_pos hsc]
          have htake : take length c₂ = (.error e, d) :=
            eq_error_of_advance (advance_eq_take length c₂) h
          exact bind_eq_of_error (r := take length) htake
        · rw [if_neg hsc]
          exact bind_eq_of_error h
      rw [methodAttribute_of_headedBy hhead, Pool.text_eq_ok_iff.2 hs]
      exact hbody

/-! ### The two walks -/

/-- Stepping over a table succeeds where its rows are passed. -/
theorem exists_rows_of_attributes {n : Nat} (h : attributes c = (.ok n, d)) :
    ∃ (count : UInt16) (rows : List Attribute) (c₁ : Cursor), rows.length = count.toNat ∧
      (∀ a ∈ rows, a.Fits) ∧ c.Passes (word count) c₁ ∧
      c₁.Passes (rows.flatMap Attribute.bytes) d := by
  rcases accepts_attributes.sound h with ⟨_, ⟨rows, ⟨hlen, hrows⟩, -, rfl⟩, hp⟩
  rcases Cursor.Passes.append_iff.1 hp with ⟨c₁, hp, hp'⟩
  have hw : (UInt16.ofNat rows.length).toNat = rows.length := UInt16.toNat_ofNat_of_lt' hlen
  refine ⟨UInt16.ofNat rows.length, rows, c₁, hw.symm, hrows, ?_, hp'⟩
  rwa [word, hw]

/-- Behind its count a table is read row by row. -/
theorem methodAttributes_of_passes {count : UInt16} (hp : c.Passes (word count) c') :
    methodAttributes p code c =
      (times count.toNat (methodAttribute p code) >>= fun sizes => pure (lastSize sizes)) c' :=
  bind_eq_of_ok ((accepts_u16 c c' _).2 ⟨_, ⟨count, rfl, rfl⟩, hp⟩)

/-- Where reading a table succeeds, stepping over it does. -/
theorem attributes_of_methodAttributes {size : Nat} (h : methodAttributes p code c = (.ok size, d)) :
    ∃ n, attributes c = (.ok n, d) := by
  rcases (accepts_methodAttributes p code).sound h with ⟨bs, ⟨rows, ⟨hrows, -⟩, rfl⟩, hp⟩
  exact ⟨rows.length, (accepts_attributes c d _).2 ⟨_, ⟨rows, hrows, rfl, rfl⟩, hp⟩⟩

/-- Where stepping over a table succeeds, reading it does or meets an attribute at fault. -/
theorem methodAttributes_of_attributes {n : Nat} (h : attributes c = (.ok n, d)) :
    (∃ size, methodAttributes p code c = (.ok size, d)) ∨
      ∃ e d', methodAttributes p code c = (.error e, d') ∧ Misread p code c e d' := by
  rcases exists_rows_of_attributes h with ⟨count, rows, c₁, hcount, hrows, hp, hp'⟩
  rw [methodAttributes_of_passes hp, ← hcount]
  by_cases hall : ∀ a ∈ rows, Readable p code a
  · refine .inl ?_
    have hread : ∀ a ∈ rows, ∀ c c' : Cursor, c.Passes a.bytes c' →
        ∃ size, methodAttribute p code c = (.ok size, c') := fun a ha _ _ =>
      exists_methodAttribute_of_readable (hrows a ha) (hall a ha)
    rcases times_behind hread hp' 0 with ⟨sizes, hsizes⟩
    exact ⟨_, bind_eq_of_ok hsizes⟩
  · refine .inr ?_
    push Not at hall
    rcases exists_first hall with ⟨front, a, back, rfl, hfront, ha⟩
    have hfits : ∀ b ∈ front, b.Fits := fun b hb => hrows b (List.mem_append_left _ hb)
    have hlen : front.length < (front ++ a :: back).length := by simp
    rw [List.flatMap_append, List.flatMap_cons] at hp'
    rcases Cursor.Passes.append_iff.1 hp' with ⟨c₂, hfrontp, hp'⟩
    rcases Cursor.Passes.append_iff.1 hp' with ⟨c₃, hap, -⟩
    have hdue : DueAt c c₂ := ⟨count, front, hcount ▸ hlen, hfits, hp.trans hfrontp⟩
    rcases exists_misread (hrows a (by simp)) ha hdue hap with ⟨e, d', he, hmisread⟩
    refine ⟨e, d', bind_eq_of_error ?_, hmisread⟩
    exact times_eq_error_behind (fun b hb _ _ hpb => exists_methodAttribute_of_readable
      (hfits b hb) (not_not.1 (hfront b hb)) hpb) hfrontp hlen he

/-- Where stepping over a table fails, reading it fails in the same way, provided that nothing was
at fault before. -/
theorem methodAttributes_eq_error_of_attributes (h : attributes c = (.error e, d))
    (hnames : NamesResolve p c d) (hcode : CodeDeclares p code c d) :
    methodAttributes p code c = (.error e, d) := by
  rcases bind_eq_error_iff.1 h with h | ⟨n, c₁, hn, h⟩
  · exact bind_eq_of_error h
  · rcases accepts_u16.sound hn with ⟨_, ⟨count, rfl, rfl⟩, hp⟩
    rw [methodAttributes_of_passes hp]
    rcases bind_eq_error_iff.1 h with h | ⟨_, _, _, h⟩
    · rcases exists_of_times_eq_error accepts_anyAttribute h with
        ⟨front, c₂, hlen, hfits, hfrontp, he⟩
      have hfits : ∀ a ∈ front, a.Fits := fun a ha => (hfits a ha).elim fun _ h => h
      have hend : c₂.position ≤ d.position := by
        rcases anyAttribute_failsShort c₂ d e he with ⟨bs, hbs, -⟩
        have hpos := hbs.2
        omega
      have hdue : DueAt c c₂ := ⟨count, front, hlen, hfits, hp.trans hfrontp⟩
      have hreadable : ∀ a ∈ front, Readable p code a := by
        intro a ha
        rcases List.append_of_mem ha with ⟨before, after, rfl⟩
        rw [List.flatMap_append, List.flatMap_cons] at hfrontp
        rcases Cursor.Passes.append_iff.1 hfrontp with ⟨c₃, hbefore, hrest⟩
        rcases Cursor.Passes.append_iff.1 hrest with ⟨c₄, hap, hafter⟩
        have hdue : DueAt c c₃ := by
          refine ⟨count, before, ?_, fun b hb => hfits b (List.mem_append_left _ hb),
            hp.trans hbefore⟩
          rw [List.length_append] at hlen
          omega
        have hposition := hafter.2
        exact readable_of_dueAt hdue (hfits a ha) hap (by omega) hnames hcode
      refine bind_eq_of_error (times_eq_error_behind (fun a ha _ _ hpa =>
        exists_methodAttribute_of_readable (hfits a ha) (hreadable a ha) hpa) hfrontp hlen ?_)
      exact methodAttribute_eq_error_of_anyAttribute he fun c₃ w length hhead hpos =>
        hnames c₂ c₃ w length hdue hhead hpos
    · cases h

/-- Where reading the methods succeeds, stepping over as many fields does. -/
theorem fields_of_methods {ms : List Method} (h : methods p code c = (.ok ms, d)) :
    fields c = (.ok ms.length, d) := by
  rcases (accepts_methods p code).sound h with ⟨_, ⟨rows, ⟨hrows, -, hms⟩, rfl⟩, hp⟩
  exact (accepts_fields c d _).2 ⟨_, ⟨rows, hrows, hms.length_eq.symm, rfl⟩, hp⟩

/-- How the walk that reads a table of attributes and the walk that steps over it agree from a
cursor, and so do those over a table of methods and over one of fields. -/
structure WalkersAgree (p : Pool) (code : String) (c : Cursor) : Prop where
  /-- What is read is stepped over, up to the same place. -/
  stepped : ∀ (size : Nat) (d : Cursor), methodAttributes p code c = (.ok size, d) →
    ∃ n, attributes c = (.ok n, d)
  /-- What is stepped over is read up to the same place, or one of its attributes is at fault. -/
  read : ∀ (n : Nat) (d : Cursor), attributes c = (.ok n, d) →
    (∃ size, methodAttributes p code c = (.ok size, d)) ∨
      ∃ e d', methodAttributes p code c = (.error e, d') ∧ Misread p code c e d'
  /-- Where stepping over fails, too few bytes are left, and reading fails as well. -/
  short : ∀ (e : Fault) (d : Cursor), attributes c = (.error e, d) →
    d.Short e ∧ ∃ e' d', methodAttributes p code c = (.error e', d')
  /-- Both fail alike if nothing is at fault before that place. -/
  alike : ∀ (e : Fault) (d : Cursor), attributes c = (.error e, d) → NamesResolve p c d →
    CodeDeclares p code c d → methodAttributes p code c = (.error e, d)
  /-- As many methods are read as fields are stepped over, up to the same place. -/
  members : ∀ (ms : List Method) (d : Cursor), methods p code c = (.ok ms, d) →
    fields c = (.ok ms.length, d)
  /-- Whatever an attribute holds, the reading goes on behind its declared length. -/
  passed : ∀ (a : Attribute) (s : String) (d : Cursor), a.Fits → c.Passes a.bytes d →
    p.HasText a.nameIndex.toNat s → (methodAttribute p code c).2 = d

theorem walkers_agree (p : Pool) (code : String) (c : Cursor) : WalkersAgree p code c where
  stepped _ _ h := attributes_of_methodAttributes h
  read _ _ h := methodAttributes_of_attributes h
  short e d h := by
    rcases attributes_failsShort c d e h with ⟨_, _, hshort⟩
    refine ⟨hshort, ?_⟩
    rcases hr : methodAttributes p code c with ⟨e' | size, d'⟩
    · exact ⟨e', d', rfl⟩
    · rcases attributes_of_methodAttributes hr with ⟨n, hn⟩
      rw [h] at hn
      cases hn
  alike _ _ h hnames hcode := methodAttributes_eq_error_of_attributes h hnames hcode
  members _ _ h := fields_of_methods h
  passed a s d hf hp hs := by rw [methodAttribute_of_passes hf hp hs]

/-- An empty attribute is stepped over, but its name is not found in an empty pool. -/
example : attributes (⟨0, [0, 1, 0, 5, 0, 0, 0, 0]⟩ : Cursor) = (.ok 1, ⟨8, []⟩) ∧
    methodAttributes Pool.empty "Code" (⟨0, [0, 1, 0, 5, 0, 0, 0, 0]⟩ : Cursor) =
      (.error (.badReference 5 .utf8 .outOfRange), ⟨8, []⟩) := by decide +kernel

end Section
end JarRank.ClassFile
