import StraceXv6.User.Shell.Parser

namespace StraceXv6.User.Shell

open List Data

/-! Lines that consist of words and blanks only. -/

structure IsWord (word : List UInt8) : Prop where
  nonempty : word ≠ []
  noNul : (0 : UInt8) ∉ word
  visible : ∀ c ∈ word, isWhitespace c = false
  plain : ∀ c ∈ word, isSymbol c = false

private theorem all_not_iff {property : UInt8 → Bool} {word : List UInt8} :
    word.all (fun c => !property c) = true ↔ ∀ c ∈ word, property c = false := by
  rw [all_eq_true]
  exact forall₂_congr fun c _ => by rw [Bool.not_eq_true']

instance (word : List UInt8) : Decidable (IsWord word) :=
  decidable_of_iff (word ≠ [] ∧ (0 : UInt8) ∉ word ∧ word.all (fun c => !isWhitespace c) = true ∧
      word.all (fun c => !isSymbol c) = true)
    ⟨fun facts => ⟨facts.1, facts.2.1, all_not_iff.mp facts.2.2.1, all_not_iff.mp facts.2.2.2⟩,
      fun isWord => ⟨isWord.nonempty, isWord.noNul, all_not_iff.mpr isWord.visible,
        all_not_iff.mpr isWord.plain⟩⟩

def IsGap (gap : List UInt8) : Prop := ∀ c ∈ gap, isWhitespace c = true

instance (gap : List UInt8) : Decidable (IsGap gap) :=
  decidable_of_iff (gap.all isWhitespace = true) List.all_eq_true

/-- The text starts with the first word and holds the words in order, with gaps
between them and perhaps after the last. -/
inductive Renders : List UInt8 → List (List UInt8) → Prop where
  | nil : Renders [] []
  | cons {word gap rest words} : IsWord word → IsGap gap → (rest ≠ [] → gap ≠ []) →
      Renders rest words → Renders (word ++ gap ++ rest) (word :: words)

theorem noNul_gap {gap : List UInt8} (isGap : IsGap gap) : (0 : UInt8) ∉ gap := by
  intro member
  exact absurd (isGap 0 member) (by decide)

theorem Renders.noNul {text : List UInt8} {words : List (List UInt8)}
    (renders : Renders text words) : (0 : UInt8) ∉ text := by
  induction renders with
  | nil => exact nofun
  | cons isWord isGap _ _ induction =>
    simp only [mem_append, not_or]
    exact ⟨⟨isWord.noNul, noNul_gap isGap⟩, induction⟩

theorem Renders.head {text : List UInt8} {words : List (List UInt8)}
    (renders : Renders text words) :
    text = [] ∧ words = [] ∨ ∃ c rest, text = c :: rest ∧ words ≠ [] ∧ c ≠ 0 ∧
      isWhitespace c = false ∧ isSymbol c = false := by
  cases renders with
  | nil => exact .inl ⟨rfl, rfl⟩
  | @cons word gap rest words isWord _ _ _ =>
    cases word with
    | nil => exact absurd rfl isWord.nonempty
    | cons c word =>
      refine .inr ⟨c, word ++ gap ++ rest, rfl, cons_ne_nil _ _, ?_,
        isWord.visible c mem_cons_self, isWord.plain c mem_cons_self⟩
      intro zero
      exact isWord.noNul (zero ▸ mem_cons_self)

private theorem takeWhile_append_stop {stops : UInt8 → Bool} {front back : List UInt8}
    (keeps : ∀ c ∈ front, stops c = true)
    (halts : back = [] ∨ ∃ c rest, back = c :: rest ∧ stops c = false) :
    (front ++ back).takeWhile stops = front := by
  rw [takeWhile_append_of_pos keeps]
  rcases halts with none | ⟨c, rest, some, stop⟩
  · simp [none]
  · simp [some, stop]

section

variable {text : List UInt8}

theorem skip_of_gap {s : Nat} {gap rest : List UInt8} {words : List (List UInt8)}
    (here : text.drop s = gap ++ rest) (isGap : IsGap gap)
    (renders : Renders rest words) : skip text s = s + gap.length := by
  rw [skip, here, takeWhile_append_stop isGap]
  rcases renders.head with ⟨none, _⟩ | ⟨c, tail, some, _, _, visible, _⟩
  · exact .inl none
  · exact .inr ⟨c, tail, some, visible⟩

theorem skip_of_renders {s : Nat} {words : List (List UInt8)}
    (renders : Renders (text.drop s) words) : skip text s = s :=
  @skip_of_gap text s [] _ words rfl nofun renders

theorem peek_of_renders {s : Nat} {words : List (List UInt8)}
    (renders : Renders (text.drop s) words) {toks : List UInt8}
    (operators : toks.all isSymbol = true) : peek text s toks = (s, false) := by
  have stays := skip_of_renders renders
  simp only [peek, stays, charAt_eq_head]
  rcases renders.head with ⟨none, _⟩ | ⟨c, rest, some, _, _, _, plain⟩
  · simp [none]
  · have absent : toks.contains c = false := by
      rw [← Bool.not_eq_true, contains_iff_mem]
      intro member
      rw [all_eq_true.mp operators c member] at plain
      contradiction
    simp only [some, headD_cons, absent, Bool.and_false]

theorem parseredirs_of_renders {s fuel : Nat} {words : List (List UInt8)}
    (renders : Renders (text.drop s) words) :
    parseredirs text (fuel + 1) s = .ok ([], s) := by
  simp only [parseredirs, peek_of_renders renders (by decide : (lit "<>").all isSymbol = true)]
  rfl

theorem gettoken_of_renders {s : Nat} {word gap rest : List UInt8}
    {words : List (List UInt8)} (here : text.drop s = word ++ gap ++ rest)
    (isWord : IsWord word) (isGap : IsGap gap) (separated : rest ≠ [] → gap ≠ [])
    (renders : Renders rest words) :
    gettoken text s =
        ⟨'a'.toUInt8, s, s + word.length, s + word.length + gap.length⟩ ∧
      text.drop (s + word.length + gap.length) = rest := by
  have whole : Renders (text.drop s) (word :: words) :=
    here ▸ .cons isWord isGap separated renders
  have stays := skip_of_renders whole
  have after : text.drop (s + word.length) = gap ++ rest := by
    rw [← drop_drop, here, append_assoc, drop_left]
  have ended : text.drop (s + word.length + gap.length) = rest := by
    rw [← drop_drop, after, drop_left]
  refine ⟨?_, ended⟩
  obtain ⟨c, tail, some, _, nonzero, visible, plain⟩ :=
    whole.head.resolve_left (fun none => nomatch none.2)
  have first : charAt text s = c := by rw [charAt_eq_head, some]; rfl
  have scanned : wordEnd text s = s + word.length := by
    rw [wordEnd, here, append_assoc, takeWhile_append_stop]
    · intro c member
      rw [isWord.visible c member, isWord.plain c member]
      rfl
    · cases gap with
      | nil =>
        by_cases last : rest = []
        · exact .inl last
        · exact absurd rfl (separated last)
      | cons blank gap =>
        refine .inr ⟨blank, gap ++ rest, rfl, ?_⟩
        rw [isGap blank mem_cons_self]
        rfl
  simp only [gettoken, stays,
    scan_word (first ▸ nonzero) (first ▸ plain), scanned,
    skip_of_gap after isGap renders]

inductive Located (text : List UInt8) : Nat → List Span → List (List UInt8) → Prop where
  | nil {s} : Located text s [] []
  | cons {s span spans word words} : s ≤ span.q → span.q < span.eq →
      span.eq ≤ text.length → (0 : UInt8) ∉ word →
      (text.drop span.q).take (span.eq - span.q) = word →
      Located text (span.eq + 1) spans words →
      Located text s (span :: spans) (word :: words)

theorem Located.mono {early late : Nat} {spans : List Span} {words : List (List UInt8)}
    (located : Located text late spans words) (order : early ≤ late) :
    Located text early spans words := by
  cases located with
  | nil => exact .nil
  | cons start nonempty within noNul slice rest =>
    exact .cons (order.trans start) nonempty within noNul slice rest

theorem gettoken_at_end {s : Nat} (ends : text.drop s = []) :
    gettoken text s = ⟨0, s, s, s⟩ := by
  have empty : Renders (text.drop s) [] := by
    rw [ends]
    exact .nil
  have stays := skip_of_renders empty
  have zero : charAt text s = 0 := by rw [charAt_eq_head, ends]; rfl
  simp only [gettoken, stays, scan_end zero]

private theorem parseargs_word {fuel argc s : Nat} {word gap rest : List UInt8}
    {words : List (List UInt8)} (here : text.drop s = word ++ gap ++ rest)
    (isWord : IsWord word) (isGap : IsGap gap) (separated : rest ≠ [] → gap ≠ [])
    (renders : Renders rest words) :
    parseargs text (fuel + 1) argc s =
      if argc + 1 ≥ maxargs then .error (.panic .tooManyArgs)
      else (parseargs text fuel (argc + 1) (s + word.length + gap.length)).map
        fun result => (⟨s, s + word.length⟩ :: result.1, result.2.1, result.2.2) := by
  have whole : Renders (text.drop s) (word :: words) :=
    here ▸ .cons isWord isGap separated renders
  obtain ⟨token, ended⟩ := gettoken_of_renders here isWord isGap separated renders
  have noOperator := peek_of_renders whole
    (by decide : (lit "|)&;").all isSymbol = true)
  have noRedirs := @parseredirs_of_renders text (s + word.length + gap.length)
    text.length words (ended ▸ renders)
  simp only [parseargs, noOperator, token, noRedirs]
  rw [if_neg (by decide), if_neg (by decide), if_neg (by decide)]
  split
  next => rfl
  next =>
    change (parseargs text fuel (argc + 1) (s + word.length + gap.length) >>=
      fun result => pure
        (⟨s, s + word.length⟩ :: result.1, [] ++ result.2.1, result.2.2)) = _
    cases parseargs text fuel (argc + 1) (s + word.length + gap.length) with
    | error stop | ok result => rfl

theorem parseargs_of_renders {fuel argc s : Nat} {words : List (List UInt8)}
    (renders : Renders (text.drop s) words) (inside : s ≤ text.length)
    (enough : words.length < fuel) (few : argc + words.length < maxargs) :
    ∃ spans, parseargs text fuel argc s = .ok (spans, [], text.length) ∧
      Located text s spans words := by
  induction words generalizing fuel argc s with
  | nil =>
    obtain ⟨fuel, rfl⟩ : ∃ rest, fuel = rest + 1 := ⟨fuel - 1, by omega⟩
    have noOperator := peek_of_renders renders
      (by decide : (lit "|)&;").all isSymbol = true)
    have ends : text.drop s = [] := by
      rcases renders.head with ⟨ends, _⟩ | ⟨_, _, _, nonempty, _⟩
      · exact ends
      · exact absurd rfl nonempty
    have last : s = text.length :=
      Nat.le_antisymm inside (drop_eq_nil_iff.mp ends)
    refine ⟨[], ?_, .nil⟩
    simp only [parseargs, noOperator, gettoken_at_end ends]
    rw [← last]
    rfl
  | cons word words induction =>
    obtain ⟨fuel, rfl⟩ : ∃ rest, fuel = rest + 1 := ⟨fuel - 1, by omega⟩
    rw [length_cons] at enough few
    generalize here : text.drop s = suffix at renders
    cases renders with
    | @cons word gap rest words isWord isGap separated renders =>
      obtain ⟨_, ended⟩ := gettoken_of_renders here isWord isGap separated renders
      have length : s + word.length + gap.length ≤ text.length := by
        have total := congrArg List.length here
        simp only [length_drop, length_append] at total
        have positive := length_pos_iff.mpr isWord.nonempty
        omega
      obtain ⟨spans, parsed, located⟩ := @induction fuel (argc + 1)
        (s + word.length + gap.length) (ended ▸ renders) length (by omega) (by omega)
      have positive := length_pos_iff.mpr isWord.nonempty
      refine ⟨⟨s, s + word.length⟩ :: spans, ?_, ?_⟩
      · rw [parseargs_word here isWord isGap separated renders, if_neg (by omega), parsed]
        rfl
      · refine .cons (Nat.le_refl s) (by simp only; omega) (by simp only; omega)
          isWord.noNul ?_ ?_
        · simp [here, append_assoc]
        · cases renders with
          | nil =>
            cases located
            exact .nil
          | cons laterWord _ _ _ =>
            have blank : gap ≠ [] := separated (by simp [laterWord.nonempty])
            have wide := length_pos_iff.mpr blank
            exact located.mono (by simp only; omega)

theorem parseargs_tooMany {fuel argc s : Nat} {words : List (List UInt8)}
    (renders : Renders (text.drop s) words) (enough : words.length < fuel)
    (below : argc < maxargs) (many : maxargs ≤ argc + words.length) :
    parseargs text fuel argc s = .error (.panic .tooManyArgs) := by
  induction words generalizing fuel argc s with
  | nil => simp only [length_nil] at many; omega
  | cons word words induction =>
    obtain ⟨fuel, rfl⟩ : ∃ rest, fuel = rest + 1 := ⟨fuel - 1, by omega⟩
    rw [length_cons] at enough many
    generalize here : text.drop s = suffix at renders
    cases renders with
    | @cons word gap rest words isWord isGap separated renders =>
      obtain ⟨_, ended⟩ := gettoken_of_renders here isWord isGap separated renders
      rw [parseargs_word here isWord isGap separated renders]
      split
      next => rfl
      next => rw [induction (ended ▸ renders) (by omega) (by omega) (by omega)]; rfl

private def clearAll (ends : List Nat) (buffer : List UInt8) : List UInt8 :=
  ends.foldl (fun buffer eq => buffer.set eq 0) buffer

private theorem getElem?_clearAll (ends : List Nat) (buffer : List UInt8) (i : Nat) :
    (clearAll ends buffer)[i]? =
      if i ∈ ends then buffer[i]?.map fun _ => 0 else buffer[i]? := by
  induction ends generalizing buffer with
  | nil => simp [clearAll]
  | cons eq ends induction =>
    change (clearAll ends (buffer.set eq 0))[i]? = _
    rw [induction, List.getElem?_set]
    by_cases here : eq = i
    · subst here
      simp only [if_true, mem_cons, true_or]
      by_cases inside : eq < buffer.length
      · simp [inside]
      · simp [inside]
    · simp only [here, if_false, mem_cons, Ne.symm here, false_or]

private theorem cstr_drop_clearAll {ends : List Nat} {span : Span} {word : List UInt8}
    (nonempty : span.q < span.eq) (within : span.eq ≤ text.length)
    (noNul : (0 : UInt8) ∉ word)
    (slice : (text.drop span.q).take (span.eq - span.q) = word)
    (own : span.eq ∈ ends) (outside : ∀ eq ∈ ends, eq < span.q ∨ span.eq ≤ eq) :
    cstr ((clearAll ends (text ++ [0])).drop span.q) = word := by
  have length : word.length = span.eq - span.q := by
    rw [← slice, length_take, length_drop]
    omega
  have shape : (clearAll ends (text ++ [0])).drop span.q =
      word ++ 0 :: (clearAll ends (text ++ [0])).drop (span.eq + 1) := by
    apply ext_getElem?
    intro i
    rw [List.getElem?_drop, getElem?_clearAll]
    rcases Nat.lt_trichotomy i word.length with before | equal | after
    · have kept : span.q + i ∉ ends := by
        intro member
        rcases outside _ member with low | high <;> omega
      rw [if_neg kept, List.getElem?_append_left (by omega),
        List.getElem?_append_left before, ← slice, List.getElem?_take_of_lt (by omega),
        List.getElem?_drop]
    · have position : span.q + i = span.eq := by omega
      have exists_byte : ∃ byte, (text ++ [0])[span.eq]? = some byte :=
        ⟨_, List.getElem?_eq_getElem (by
          rw [length_append, length_singleton]
          omega)⟩
      obtain ⟨byte, found⟩ := exists_byte
      rw [position, if_pos own, found, equal]
      simp
    · rw [List.getElem?_append_right after.le,
        show i - word.length = (i - word.length - 1) + 1 by omega,
        List.getElem?_cons_succ, List.getElem?_drop, getElem?_clearAll,
        show span.eq + 1 + (i - word.length - 1) = span.q + i by omega]
  rw [shape]
  exact cstr_append_nul noNul _

private theorem Located.lower {s : Nat} {spans : List Span} {words : List (List UInt8)}
    (located : Located text s spans words) : ∀ eq ∈ spans.map Span.eq, s ≤ eq := by
  induction located with
  | nil => exact nofun
  | cons start nonempty _ _ _ _ induction =>
    intro eq member
    rcases mem_cons.mp member with same | later
    · omega
    · have after := induction eq later
      omega

private theorem texts_of_located {s : Nat} {spans : List Span}
    {words : List (List UInt8)} (located : Located text s spans words)
    {ends before : List Nat} (split : ends = before ++ spans.map Span.eq)
    (earlier : ∀ eq ∈ before, eq < s) :
    spans.map (fun span => cstr ((clearAll ends (text ++ [0])).drop span.q)) = words := by
  induction located generalizing before with
  | nil => rfl
  | @cons s span spans word words start nonempty within noNul slice rest induction =>
    have lower := rest.lower
    rw [map_cons]
    congr 1
    · apply cstr_drop_clearAll nonempty within noNul slice
      · rw [split]
        exact mem_append_right _ mem_cons_self
      · intro eq member
        rw [split, map_cons, mem_append, mem_cons] at member
        rcases member with low | same | later
        · have below := earlier eq low
          exact .inl (by omega)
        · exact .inr (by omega)
        · have above := lower eq later
          exact .inr (by omega)
    · refine @induction (before ++ [span.eq]) ?_ ?_
      · rw [split, map_cons, append_assoc, singleton_append]
      · intro eq member
        rcases mem_append.mp member with low | same
        · have below := earlier eq low
          omega
        · rw [mem_singleton.mp same]
          omega

theorem Renders.length_le {body : List UInt8} {words : List (List UInt8)}
    (renders : Renders body words) : words.length ≤ body.length := by
  induction renders with
  | nil => exact Nat.le_refl 0
  | cons isWord _ _ _ induction =>
    have positive := length_pos_iff.mpr isWord.nonempty
    simp only [length_cons, length_append]
    omega

private theorem peek_skip (s : Nat) (toks : List UInt8) :
    peek text (skip text s) toks = peek text s toks := by
  simp only [peek, skip_skip]

private theorem parseexec_of_renders {fuel s : Nat} {words : List (List UInt8)}
    (renders : Renders (text.drop (skip text s)) words) (inside : s ≤ text.length) :
    (words.length < maxargs → ∃ spans,
      parseexec text (fuel + 1) s = .ok (.exec spans, text.length) ∧
        Located text (skip text s) spans words) ∧
    (maxargs ≤ words.length →
      parseexec text (fuel + 1) s = .error (.panic .tooManyArgs)) := by
  have noBlock : peek text s (lit "(") = (skip text s, false) := by
    rw [← peek_skip]
    exact peek_of_renders renders (by decide)
  have count := renders.length_le
  rw [length_drop] at count
  have noRedirs := @parseredirs_of_renders text (skip text s) text.length words renders
  constructor
  · intro few
    obtain ⟨spans, parsed, located⟩ := @parseargs_of_renders text (text.length + 1) 0
      (skip text s) words renders (skip_le inside) (by omega) (by omega)
    refine ⟨spans, ?_, located⟩
    simp only [parseexec, noBlock, noRedirs]
    change (parseargs text (text.length + 1) 0 (skip text s) >>= _) = _
    rw [parsed]
    rfl
  · intro many
    have failed := @parseargs_tooMany text (text.length + 1) 0 (skip text s) words
      renders (by omega) (by decide) (by omega)
    simp only [parseexec, noBlock, noRedirs]
    change (parseargs text (text.length + 1) 0 (skip text s) >>= _) = _
    rw [failed]
    rfl

theorem parsecmd_of_renders {gap body : List UInt8} {words : List (List UInt8)}
    (split : text = gap ++ body) (isGap : IsGap gap) (renders : Renders body words) :
    parsecmd text =
      if words.length < maxargs then .ok (.exec words)
      else .error (.panic .tooManyArgs) := by
  have start : skip text 0 = gap.length := by
    rw [skip_of_gap (by rw [drop_zero]; exact split) isGap renders, Nat.zero_add]
  have rendered : Renders (text.drop (skip text 0)) words := by
    rw [start, split, drop_left]
    exact renders
  have finish : Renders (text.drop text.length) [] := by
    rw [drop_length]
    exact .nil
  have atEnd : ∀ toks : List UInt8, toks.all isSymbol = true →
      peek text text.length toks = (text.length, false) :=
    fun toks operators => peek_of_renders finish operators
  obtain ⟨accepted, rejected⟩ := @parseexec_of_renders text (4 * text.length + 1) 0
    words rendered (Nat.zero_le _)
  split
  next few =>
    obtain ⟨spans, parsed, located⟩ := accepted few
    have piped : parsepipe text (4 * text.length + 3) 0 =
        .ok (.exec spans, text.length) := by
      simp only [parsepipe, parsed]
      change (if (peek text text.length (lit "|")).2 = true then _ else _) = _
      rw [atEnd _ (by decide)]
      rfl
    have lined : parseline text (4 * text.length + 4) 0 =
        .ok (.exec spans, text.length) := by
      simp only [parseline, piped]
      change (parsebacks text (text.length + 1) (.exec spans) text.length >>= _) = _
      simp only [parsebacks, atEnd _ (by decide : (lit "&").all isSymbol = true)]
      change (if (peek text text.length (lit ";")).2 = true then _ else _) = _
      rw [atEnd _ (by decide)]
      rfl
    have texts := @texts_of_located text (skip text 0) spans words located
      (spans.map Span.eq) [] rfl fun _ member => absurd member not_mem_nil
    simp only [parsecmd, lined]
    change (if (peek text text.length []).1 ≠ text.length then _ else _) = _
    rw [atEnd [] rfl, if_neg (by simp)]
    change Except.ok (Cmd.exec (spans.map fun span =>
      cstr ((clearAll (spans.map Span.eq) (text ++ [0])).drop span.q))) = _
    rw [texts]
  next many =>
    have failed := rejected (Nat.le_of_not_lt many)
    simp only [parsecmd, parseline, parsepipe, failed]
    rfl

end

end StraceXv6.User.Shell
