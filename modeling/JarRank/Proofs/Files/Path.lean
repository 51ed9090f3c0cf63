import JarRank.Files.Path

/-!
# Parts and stems

Every part of a path that is read from a text is a name: it is not empty, is not
a single dot and has no slash in it. A name is its own stem unless it ends in a
suffix: a dot behind something, and behind the dot something without dots.

A path whose parts are names is written so that it is read as itself.
-/
namespace JarRank.Files.Path

structure IsName (name : String) : Prop where
  ne_empty : name ≠ ""
  ne_dot : name ≠ "."
  no_slash : '/' ∉ name.toList

theorem no_slash_of_mem_pieces {cs piece : List Char} {acc : List String} (hp : '/' ∉ piece)
    (ha : ∀ name ∈ acc, '/' ∉ name.toList) : ∀ name ∈ pieces cs piece acc, '/' ∉ name.toList := by
  have hnew : ∀ name ∈ String.ofList piece.reverse :: acc, '/' ∉ name.toList := by
    intro name hn
    rcases List.mem_cons.1 hn with rfl | hn
    · simpa using hp
    · exact ha name hn
  induction cs generalizing piece acc with
  | nil => exact hnew
  | cons c cs ih =>
      unfold pieces
      split
      · exact ih List.not_mem_nil hnew (by simpa using hnew)
      · next hc => exact ih (by simp [hp, Ne.symm hc]) ha (by simpa [Ne.symm hc, hp] using ha)

theorem isName_of_mem_parts {s name : String} (h : name ∈ (ofString s).parts) : IsName name := by
  obtain ⟨hmem, hpart⟩ := List.mem_filter.1 h
  have hslash := no_slash_of_mem_pieces List.not_mem_nil
    (fun _ h => (List.not_mem_nil h).elim) name (List.mem_reverse.1 hmem)
  simp only [isPart, Bool.and_eq_true, bne_iff_ne] at hpart
  exact ⟨hpart.1, hpart.2, hslash⟩

theorem isName_of_mem_join {p q : Path} (hp : ∀ name ∈ p.parts, IsName name)
    (hq : ∀ name ∈ q.parts, IsName name) : ∀ name ∈ (p.join q).parts, IsName name := by
  intro name hn
  unfold join at hn
  split at hn
  · exact hq name hn
  · exact (List.mem_append.1 hn).elim (hp name) (hq name)

theorem pieces_of_no_slash {cs : List Char} (h : '/' ∉ cs) (piece : List Char)
    (acc : List String) : pieces cs piece acc = String.ofList (piece.reverse ++ cs) :: acc := by
  induction cs generalizing piece with
  | nil => simp [pieces]
  | cons c cs ih =>
      obtain ⟨hc, hcs⟩ := not_or.1 fun hor => h (List.mem_cons.2 hor)
      simp [pieces, Ne.symm hc, ih hcs]

/-- A text without a slash is a path of one part, or of none. -/
theorem ofString_of_no_slash {s : String} (h : '/' ∉ s.toList) :
    ofString s = ⟨.relative, [s].filter isPart⟩ := by
  have hfront : s.toList.takeWhile (· = '/') = [] := by
    cases hs : s.toList with
    | nil => rfl
    | cons c cs => simp_all [Ne.symm]
  simp [ofString, hfront, pieces_of_no_slash h]

theorem pieces_append_slash {cs : List Char} (h : '/' ∉ cs) (rest piece : List Char)
    (acc : List String) : pieces (cs ++ '/' :: rest) piece acc =
      pieces rest [] (String.ofList (piece.reverse ++ cs) :: acc) := by
  induction cs generalizing piece with
  | nil => simp [pieces]
  | cons c cs ih =>
      obtain ⟨hc, hcs⟩ := not_or.1 fun hor => h (List.mem_cons.2 hor)
      simp [pieces, Ne.symm hc, ih hcs]

/-- Names with slashes between them are the pieces of that text. -/
theorem pieces_intercalate {names : List String} (hne : names ≠ [])
    (h : ∀ name ∈ names, '/' ∉ name.toList) (acc : List String) :
    pieces (['/'].intercalate (names.map String.toList)) [] acc = names.reverse ++ acc := by
  induction names generalizing acc with
  | nil => exact (hne rfl).elim
  | cons name names ih =>
      obtain ⟨hname, hnames⟩ := List.forall_mem_cons.1 h
      cases names with
      | nil => simp [pieces_of_no_slash hname]
      | cons next names =>
          rw [List.map_cons, List.map_cons, List.intercalate_cons_cons, List.append_assoc,
            List.singleton_append, pieces_append_slash hname, ← List.map_cons,
            ih (by simp) hnames]
          simp

/-- No slash stands before the first of some names. -/
theorem takeWhile_intercalate {names : List String} (h : ∀ name ∈ names, IsName name) :
    (['/'].intercalate (names.map String.toList)).takeWhile (· = '/') = [] := by
  cases names with
  | nil => rfl
  | cons name names =>
      have hname := h name List.mem_cons_self
      cases hcs : name.toList with
      | nil => exact (hname.ne_empty (String.toList_eq_nil_iff.1 hcs)).elim
      | cons c cs =>
          have hc : c ≠ '/' := by
            rintro rfl
            exact hname.no_slash (by simp [hcs])
          cases names <;> simp [hcs, hc, List.intercalate_cons_cons]

/-- A path whose parts are names is the one that its text is read as. -/
theorem ofString_toString {p : Path} (h : ∀ name ∈ p.parts, IsName name) :
    ofString p.toString = p := by
  obtain ⟨root, parts⟩ := p
  have hfront := takeWhile_intercalate h
  have hkept : parts.filter isPart = parts := by
    rw [List.filter_eq_self]
    intro name hn
    have hname := h name hn
    simp [isPart, hname.ne_empty, hname.ne_dot]
  by_cases hne : parts = []
  · subst hne
    cases root <;> decide
  · have hpieces := pieces_intercalate hne fun name hn => (h name hn).no_slash
    have htext : (toString ⟨root, parts⟩).toList =
        root.text.toList ++ ['/'].intercalate (parts.map String.toList) := by
      simp [toString, hne, String.toList_intercalate]
    unfold ofString
    rw [htext]
    generalize ['/'].intercalate (parts.map String.toList) = text at hfront hpieces
    cases root with
    | relative => simp [Root.text, hfront, hpieces, hkept]
    | single => simp [Root.text, hfront, hpieces, hkept, pieces, isPart]
    | double => simp [Root.text, hfront, hpieces, hkept, pieces, isPart]

theorem exists_intercalate_append (parts names : List String) :
    ∃ rest, "/".intercalate (parts ++ names) = "/".intercalate parts ++ rest := by
  have hlists : ∀ front : List (List Char), ∃ rest,
      ['/'].intercalate (front ++ names.map String.toList) = ['/'].intercalate front ++ rest := by
    intro front
    induction front with
    | nil => exact ⟨_, rfl⟩
    | cons part front ih =>
        cases front with
        | nil =>
            cases names.map String.toList with
            | nil => exact ⟨[], by simp⟩
            | cons name names =>
                refine ⟨'/' :: ['/'].intercalate (name :: names), ?_⟩
                rw [List.singleton_append, List.intercalate_cons_cons, List.append_assoc,
                  List.singleton_append, List.intercalate_singleton]
        | cons next front =>
            obtain ⟨rest, hrest⟩ := ih
            refine ⟨rest, ?_⟩
            rw [List.cons_append, List.cons_append, List.intercalate_cons_cons, ← List.cons_append,
              hrest, List.intercalate_cons_cons]
            simp only [List.append_assoc]
  obtain ⟨rest, hrest⟩ := hlists (parts.map String.toList)
  refine ⟨String.ofList rest, String.ext ?_⟩
  rw [String.toList_append, String.toList_ofList, String.toList_intercalate,
    String.toList_intercalate, List.map_append]
  exact hrest

/-- A path that goes on from another one is at least as long, unless that one is a single dot. -/
theorem size_le_append (p : Path) (names : List String) : p.toString = "." ∨
    p.toString.utf8ByteSize ≤ (toString ⟨p.root, p.parts ++ names⟩).utf8ByteSize := by
  by_cases hdot : p.root = .relative ∧ p.parts = []
  · exact .inl (if_pos hdot)
  · have hlong : ¬ (p.root = .relative ∧ p.parts ++ names = []) := fun h =>
      hdot ⟨h.1, (List.append_eq_nil_iff.1 h.2).1⟩
    obtain ⟨rest, hrest⟩ := exists_intercalate_append p.parts names
    right
    rw [toString, toString, if_neg hdot, if_neg hlong, hrest, ← String.append_assoc,
      String.utf8ByteSize_append (t := rest)]
    exact Nat.le_add_right _ _

/-- A name is made of a front, a dot, and a suffix without dots. -/
structure Splits (name front suffix : String) : Prop where
  eq : name = front ++ "." ++ suffix
  front_ne : front ≠ ""
  suffix_ne : suffix ≠ ""
  no_dot : '.' ∉ suffix.toList

variable {name front suffix : String}

theorem takeWhile_append_dot {back : List Char} (h : '.' ∉ back) (rest : List Char) :
    (back ++ '.' :: rest).takeWhile (· ≠ '.') = back := by
  rw [List.takeWhile_append_of_pos]
  · simp
  · intro c hc
    have hne : c ≠ '.' := fun he => h (he ▸ hc)
    simpa using hne

theorem Splits.stemOf_eq (h : Splits name front suffix) : stemOf name = front := by
  have hcs : name.toList = front.toList ++ '.' :: suffix.toList := by simp [h.eq]
  have hbehind : name.toList.reverse.takeWhile (· ≠ '.') = suffix.toList.reverse := by
    rw [hcs, List.reverse_append, List.reverse_cons, List.append_assoc]
    exact takeWhile_append_dot (by simpa using h.no_dot) _
  have hback : suffix.toList.length ≠ 0 := by simpa using h.suffix_ne
  have hlength : name.toList.length = front.toList.length + (suffix.toList.length + 1) := by
    rw [hcs, List.length_append, List.length_cons]
  have htake : name.toList.take (name.toList.length - suffix.toList.length - 1) = front.toList := by
    rw [hcs]
    exact List.take_left' (by simp; omega)
  have hfront : front.toList ≠ [] := by simpa using h.front_ne
  simp only [stemOf, hbehind, List.length_reverse, htake]
  rw [if_neg, String.ofList_toList]
  simp only [List.isEmpty_iff, hfront, or_false]
  omega

/-- A text with a dot in it ends in a dot and what is behind the last one. -/
theorem exists_front_of_takeWhile {cs : List Char}
    (h : (cs.reverse.takeWhile (· ≠ '.')).length ≠ cs.length) :
    ∃ front, cs = front ++ '.' :: (cs.reverse.takeWhile (· ≠ '.')).reverse := by
  have hsplit := List.takeWhile_append_dropWhile (p := (· ≠ '.')) (l := cs.reverse)
  have hhead := List.head?_dropWhile_not (· ≠ '.') cs.reverse
  cases hd : cs.reverse.dropWhile (· ≠ '.') with
  | nil =>
      rw [hd, List.append_nil] at hsplit
      rw [hsplit, List.length_reverse] at h
      exact (h rfl).elim
  | cons c rest =>
      rw [hd] at hsplit hhead
      have hc : c = '.' := by simpa using hhead
      refine ⟨rest.reverse, ?_⟩
      have hrev := congrArg List.reverse hsplit
      simpa [hc] using hrev.symm

theorem stemOf_eq_self_or_splits (name : String) :
    stemOf name = name ∨ ∃ suffix, Splits name (stemOf name) suffix := by
  dsimp only [stemOf]
  split
  · exact .inl rfl
  · next h =>
    simp only [not_or] at h
    obtain ⟨hpos, hlen, hfront⟩ := h
    obtain ⟨front, hcs⟩ := exists_front_of_takeWhile hlen
    have hdots := List.all_takeWhile (p := (· ≠ '.')) (l := name.toList.reverse)
    generalize name.toList.reverse.takeWhile (· ≠ '.') = back at *
    have htake : name.toList.take (name.toList.length - back.length - 1) = front := by
      rw [hcs]
      exact List.take_left' (by simp; omega)
    rw [htake] at hfront ⊢
    refine .inr ⟨String.ofList back.reverse, ?_, ?_, ?_, ?_⟩
    · apply String.ext
      simpa using hcs
    · simpa using hfront
    · simpa using hpos
    · intro hdot
      have hne := List.all_eq_true.1 hdots '.' (by simpa using hdot)
      simp at hne

/-- The stem of a name is a name. -/
theorem IsName.stemOf_ne (h : IsName name) : stemOf name ≠ "" ∧ '/' ∉ (stemOf name).toList := by
  rcases stemOf_eq_self_or_splits name with hself | ⟨suffix, hs⟩
  · rw [hself]
    exact ⟨h.ne_empty, h.no_slash⟩
  · refine ⟨hs.front_ne, fun hslash => h.no_slash ?_⟩
    rw [hs.eq]
    simp [hslash]

end JarRank.Files.Path
