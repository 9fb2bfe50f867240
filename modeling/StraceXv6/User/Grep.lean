import Mathlib.Computability.Language
import StraceXv6.Data.CString

namespace StraceXv6.User.Grep

open List Data

/-! The matcher of `grep`.  A string is the list of the bytes before its NUL. -/

/-- `matchstar`, for a pattern whose rest is looked for by `matchhere`. -/
def matchstar (c : UInt8) (matchhere : List UInt8 → Bool) : List UInt8 → Bool
  | [] => matchhere []
  | b :: text =>
    if matchhere (b :: text) then true
    else if b = c ∨ c = '.'.toUInt8 then matchstar c matchhere text
    else false

/-- The last test of `matchhere`. -/
def matchchar (c : UInt8) (matchhere : List UInt8 → Bool) : List UInt8 → Bool
  | [] => false
  | b :: text => if c = '.'.toUInt8 ∨ c = b then matchhere text else false

def matchhere : List UInt8 → List UInt8 → Bool
  | [] => fun _ => true
  | [c] => if c = '$'.toUInt8 then List.isEmpty else matchchar c fun _ => true
  | c :: c' :: re =>
    if c' = '*'.toUInt8 then matchstar c (matchhere re) else matchchar c (matchhere (c' :: re))

/-- The loop of `match`. -/
def matchFrom (re : List UInt8) : List UInt8 → Bool
  | [] => matchhere re []
  | b :: text => if matchhere re (b :: text) then true else matchFrom re text

def anchored (re : List UInt8) : Bool := re.head? = some '^'.toUInt8

def matchRe (re text : List UInt8) : Bool :=
  if anchored re then matchhere re.tail text else matchFrom re text

inductive Item where
  | one (c : UInt8)
  | star (c : UInt8)
  | last
  deriving DecidableEq

def items : List UInt8 → List Item
  | [] => []
  | [c] => if c = '$'.toUInt8 then [.last] else [.one c]
  | c :: c' :: re =>
    if c' = '*'.toUInt8 then .star c :: items re else .one c :: items (c' :: re)

def StandsFor (c b : UInt8) : Prop := c = '.'.toUInt8 ∨ c = b

def letter (c : UInt8) : Language UInt8 := { word | ∃ b, StandsFor c b ∧ word = [b] }

def Item.language : Item → Language UInt8
  | .one c => letter c
  | .star c => KStar.kstar (letter c)
  | .last => 1

def language (items : List Item) : Language UInt8 := (items.map Item.language).prod

/-- A word of the items is at the start of the text, and at its end too if they say so. -/
def Begins (items : List Item) (text : List UInt8) : Prop :=
  ∃ word after, text = word ++ after ∧ word ∈ language items ∧ (.last ∈ items → after = [])

theorem begins_nil (text : List UInt8) : Begins [] text :=
  ⟨[], text, rfl, rfl, fun member => absurd member not_mem_nil⟩

variable {text : List UInt8} {c : UInt8}

theorem begins_last_iff : Begins [.last] text ↔ text = [] := by
  constructor
  · rintro ⟨word, after, rfl, member, ends⟩
    rw [language, map_singleton, prod_singleton] at member
    obtain rfl := (Language.mem_one _).mp member
    exact ends mem_cons_self
  · rintro rfl
    refine ⟨[], [], rfl, ?_, fun _ => rfl⟩
    rw [language, map_singleton, prod_singleton]
    exact Language.nil_mem_one

theorem begins_cons_iff {item : Item} {rest : List Item} (inner : item ≠ .last) :
    Begins (item :: rest) text ↔
      ∃ front back, text = front ++ back ∧ front ∈ item.language ∧ Begins rest back := by
  have last : Item.last ∈ item :: rest ↔ Item.last ∈ rest := by
    rw [mem_cons, or_iff_right inner.symm]
  have product : language (item :: rest) = item.language * language rest := by
    rw [language, map_cons, prod_cons]
    rfl
  constructor
  · rintro ⟨word, after, rfl, member, ends⟩
    rw [product] at member
    obtain ⟨front, first, middle, others, rfl⟩ := Language.mem_mul.mp member
    exact ⟨front, middle ++ after, append_assoc .., first, middle, after, rfl, others,
      fun isLast => ends (last.mpr isLast)⟩
  · rintro ⟨front, back, rfl, first, middle, after, rfl, others, ends⟩
    refine ⟨front ++ middle, after, (append_assoc ..).symm, ?_,
      fun isLast => ends (last.mp isLast)⟩
    rw [product]
    exact Language.mem_mul.mpr ⟨front, first, middle, others, rfl⟩

theorem mem_star_iff {word : List UInt8} :
    word ∈ (Item.star c).language ↔ ∀ b ∈ word, StandsFor c b := by
  constructor
  · intro member
    obtain ⟨words, rfl, single⟩ := Language.mem_kstar.mp member
    intro b inside
    obtain ⟨word, isWord, inWord⟩ := mem_flatten.mp inside
    obtain ⟨b', stands, rfl⟩ := single word isWord
    exact mem_singleton.mp inWord ▸ stands
  · intro stands
    refine Language.mem_kstar.mpr ⟨word.map ([·]), ?_, ?_⟩
    · exact (flatMap_singleton' word).symm
    · intro single member
      obtain ⟨b, inside, rfl⟩ := mem_map.mp member
      exact ⟨b, stands b inside, rfl⟩

section

variable {c : UInt8} {re : List UInt8} {rest : List Item}
  (correct : ∀ text, matchhere re text = true ↔ Begins rest text)

include correct

theorem matchchar_iff (text : List UInt8) :
    matchchar c (matchhere re) text = true ↔ Begins (.one c :: rest) text := by
  rw [begins_cons_iff (by simp)]
  cases text with
  | nil =>
    refine ⟨fun found => absurd found (by simp [matchchar]), ?_⟩
    rintro ⟨_, back, whole, ⟨b, -, rfl⟩, -⟩
    cases whole
  | cons b text =>
    rw [matchchar]
    constructor
    · intro found
      split at found
      · next stands => exact ⟨[b], text, rfl, ⟨b, stands, rfl⟩, (correct _).mp found⟩
      · cases found
    · rintro ⟨_, back, whole, ⟨b', stands, rfl⟩, begins⟩
      obtain ⟨rfl, rfl⟩ := List.cons.inj whole
      exact (if_pos stands).trans ((correct _).mpr begins)

theorem matchstar_iff (text : List UInt8) :
    matchstar c (matchhere re) text = true ↔ Begins (.star c :: rest) text := by
  rw [begins_cons_iff (by simp)]
  have here : ∀ text, matchhere re text = true →
      ∃ front back, text = front ++ back ∧ front ∈ (Item.star c).language ∧ Begins rest back :=
    fun text found => ⟨[], text, rfl, mem_star_iff.mpr (by simp), (correct _).mp found⟩
  induction text with
  | nil =>
    rw [matchstar]
    refine ⟨here [], ?_⟩
    rintro ⟨front, back, whole, -, begins⟩
    obtain ⟨-, rfl⟩ := append_eq_nil_iff.mp whole.symm
    exact (correct _).mpr begins
  | cons b text induction =>
    rw [matchstar]
    split
    · next found => exact ⟨fun _ => here _ found, fun _ => rfl⟩
    · next absent =>
      constructor
      · intro more
        split at more
        · next stands =>
          obtain ⟨front, back, rfl, member, begins⟩ := induction.mp more
          refine ⟨b :: front, back, rfl, ?_, begins⟩
          rw [mem_star_iff] at member ⊢
          rw [forall_mem_cons]
          exact ⟨stands.symm.imp_right Eq.symm, member⟩
        · cases more
      · rintro ⟨front, back, whole, member, begins⟩
        cases front with
        | nil =>
          obtain rfl := whole
          exact absurd ((correct _).mpr begins) absent
        | cons b' front =>
          obtain ⟨rfl, rfl⟩ := List.cons.inj whole
          rw [mem_star_iff, forall_mem_cons] at member
          rw [if_pos (member.1.symm.imp_left Eq.symm)]
          exact induction.mpr ⟨front, back, rfl, mem_star_iff.mpr member.2, begins⟩

end

theorem matchhere_iff (re text : List UInt8) :
    matchhere re text = true ↔ Begins (items re) text := by
  induction re using items.induct generalizing text with
  | case1 => exact ⟨fun _ => begins_nil text, fun _ => rfl⟩
  | case2 =>
    simp only [matchhere, items, if_true]
    rw [begins_last_iff, List.isEmpty_iff]
  | case3 c other =>
    rw [matchhere, items, if_neg other, if_neg other]
    exact @matchchar_iff c [] [] (fun text => ⟨fun _ => begins_nil text, fun _ => rfl⟩) text
  | case4 c re induction =>
    simp only [matchhere, items, if_true]
    exact matchstar_iff induction text
  | case5 c c' re other induction =>
    rw [matchhere, items, if_neg other, if_neg other]
    exact matchchar_iff induction text

theorem matchFrom_iff (re text : List UInt8) :
    matchFrom re text = true ↔ ∃ before rest, text = before ++ rest ∧ Begins (items re) rest := by
  induction text with
  | nil =>
    rw [matchFrom, matchhere_iff]
    refine ⟨fun begins => ⟨[], [], rfl, begins⟩, ?_⟩
    rintro ⟨before, rest, whole, begins⟩
    obtain ⟨-, rfl⟩ := append_eq_nil_iff.mp whole.symm
    exact begins
  | cons b text induction =>
    rw [matchFrom]
    split
    · next found => exact ⟨fun _ => ⟨[], _, rfl, (matchhere_iff ..).mp found⟩, fun _ => rfl⟩
    · next absent =>
      rw [induction]
      constructor
      · rintro ⟨before, rest, rfl, begins⟩
        exact ⟨b :: before, rest, rfl, begins⟩
      · rintro ⟨before, rest, whole, begins⟩
        cases before with
        | nil => exact absurd ((matchhere_iff ..).mpr (whole ▸ begins)) absent
        | cons b' before => exact ⟨before, rest, (List.cons.inj whole).2, begins⟩

/-- `match` looks for a substring in the language of the pattern. -/
theorem matchRe_iff_exists_substring (re text : List UInt8) :
    matchRe re text = true ↔
      ∃ before word after, text = before ++ word ++ after ∧ (anchored re → before = []) ∧
        word ∈ language (items (if anchored re then re.tail else re)) ∧
        (.last ∈ items (if anchored re then re.tail else re) → after = []) := by
  rw [matchRe]
  split
  · next start =>
    rw [matchhere_iff]
    constructor
    · rintro ⟨word, after, whole, member⟩
      exact ⟨[], word, after, whole, fun _ => rfl, member⟩
    · rintro ⟨before, word, after, whole, first, member⟩
      obtain rfl := first start
      exact ⟨word, after, whole, member⟩
  · next start =>
    rw [matchFrom_iff]
    constructor
    · rintro ⟨before, rest, rfl, word, after, rfl, member⟩
      exact ⟨before, word, after, (append_assoc ..).symm, fun isStart => absurd isStart start,
        member⟩
    · rintro ⟨before, word, after, rfl, -, member⟩
      exact ⟨before, word ++ after, append_assoc .., word, after, rfl, member⟩

example : matchRe (lit "^ab*.$") (lit "abbc") = true := by decide

def newline : UInt8 := '\n'.toUInt8

/-- The offset of the character. -/
def strchr (c : UInt8) : List UInt8 → Option Nat
  | [] => none
  | b :: s => if b = 0 then none else if b = c then some 0 else (strchr c s).map (· + 1)

/-- The inner loop of `grep`: the lines from `p` to `q`, and the text at `p` in the end. -/
def cut : Nat → List UInt8 → List (List UInt8) × List UInt8
  | 0, text => ([], text)
  | fuel + 1, text =>
    match strchr newline text with
    | none => ([], text)
    | some q =>
      let (lines, rest) := cut fuel (text.drop (q + 1))
      (text.take q :: lines, rest)

def written (pattern : List UInt8) (lines : List (List UInt8)) : List UInt8 :=
  lines.flatMap fun line => if matchRe pattern line then line ++ [newline] else []

/-- What `memmove` leaves at the start of `buf`.  No line has been found when `p` is `buf`. -/
def kept (text : List UInt8) : List UInt8 :=
  let rest := (cut text.length text).2
  if rest.length = text.length then [] else rest

def bufSize : Nat := 1024

/-- `grep`, with the first `m` bytes of `buf`. -/
def grep (pattern held : List UInt8) : List (List UInt8) → List UInt8
  | [] => []
  | chunk :: chunks =>
    let text := held ++ chunk
    written pattern (cut text.length text).1 ++ grep pattern (kept text) chunks

/-- The chunks are possible results of `read(fd, buf + m, sizeof(buf) - m - 1)`. -/
def Delivered (held : List UInt8) : List (List UInt8) → Prop
  | [] => True
  | chunk :: chunks =>
    chunk ≠ [] ∧ chunk.length ≤ bufSize - held.length - 1 ∧
      Delivered (kept (held ++ chunk)) chunks

def joined (lines : List (List UInt8)) : List UInt8 := lines.flatMap (· ++ [newline])

theorem Delivered.nonempty {held : List UInt8} {chunks : List (List UInt8)}
    (delivered : Delivered held chunks) : ∀ chunk ∈ chunks, chunk ≠ [] := by
  induction chunks generalizing held with
  | nil => exact fun _ member => absurd member not_mem_nil
  | cons chunk chunks induction =>
    exact forall_mem_cons.mpr ⟨delivered.1, induction delivered.2.2⟩

theorem written_nil (lines : List (List UInt8)) : written [] lines = joined lines := by
  have all : ∀ line, matchRe [] line = true := by
    intro line
    cases line <;> rfl
  exact flatMap_congr fun line _ => if_pos (all line)

theorem strchr_append {line : List UInt8} (noNul : (0 : UInt8) ∉ line) (first : c ∉ line)
    (nonzero : c ≠ 0) (rest : List UInt8) : strchr c (line ++ c :: rest) = some line.length := by
  induction line with
  | nil => rw [nil_append, strchr, if_neg nonzero, if_pos rfl]; rfl
  | cons b line induction =>
    rw [mem_cons, not_or] at noNul first
    rw [cons_append, strchr, if_neg (Ne.symm noNul.1), if_neg (Ne.symm first.1),
      induction noNul.2 first.2]
    rfl

theorem strchr_eq_none (absent : c ∉ text) : strchr c text = none := by
  induction text with
  | nil => rfl
  | cons b text induction =>
    rw [mem_cons, not_or] at absent
    rw [strchr, if_neg (Ne.symm absent.1), induction absent.2]
    split <;> rfl

theorem cut_of_not_mem (absent : newline ∉ text) (fuel : Nat) : cut fuel text = ([], text) := by
  cases fuel with
  | zero => rfl
  | succ fuel => rw [cut, strchr_eq_none absent]

theorem lt_of_strchr {q : Nat} (found : strchr c text = some q) : q < text.length := by
  induction text generalizing q with
  | nil => cases found
  | cons b text induction =>
    rw [strchr] at found
    split at found
    · cases found
    · split at found
      · cases found
        exact Nat.zero_lt_succ _
      · obtain ⟨q', found', rfl⟩ := Option.map_eq_some_iff.mp found
        exact Nat.succ_lt_succ (induction found')

theorem length_written_cut (pattern : List UInt8) (fuel : Nat) (text : List UInt8) :
    (written pattern (cut fuel text).1).length + (cut fuel text).2.length ≤ text.length := by
  induction fuel generalizing text with
  | zero => simp [cut, written]
  | succ fuel induction =>
    rw [cut]
    cases found : strchr newline text with
    | none => simp [written]
    | some q =>
      have inside := lt_of_strchr found
      have later := induction (text.drop (q + 1))
      rw [length_drop] at later
      have here : (if matchRe pattern (text.take q) then text.take q ++ [newline] else []).length ≤
          q + 1 := by
        split <;> simp
      dsimp only
      rw [written, flatMap_cons, length_append, ← written]
      omega

theorem length_grep_le (pattern held : List UInt8) (chunks : List (List UInt8)) :
    (grep pattern held chunks).length ≤ held.length + chunks.flatten.length := by
  induction chunks generalizing held with
  | nil => simp [grep]
  | cons chunk chunks induction =>
    have here := length_written_cut pattern (held ++ chunk).length (held ++ chunk)
    have later := induction (kept (held ++ chunk))
    have less : (kept (held ++ chunk)).length ≤
        (cut (held ++ chunk).length (held ++ chunk)).2.length := by
      rw [kept]
      split <;> simp
    have sum : (held ++ chunk).length + chunks.flatten.length =
        held.length + (chunk :: chunks).flatten.length := by
      rw [length_append, flatten_cons, length_append, Nat.add_assoc]
    rw [grep, length_append]
    omega

section

variable {lines : List (List UInt8)} (single : ∀ line ∈ lines, newline ∉ line)
  (noNul : ∀ line ∈ lines, (0 : UInt8) ∉ line)

include single noNul

theorem cut_spec {fuel : Nat} {text more : List UInt8} (enough : text.length ≤ fuel)
    (whole : text ++ more = joined lines) :
    ∃ found left, lines = found ++ left ∧ (cut fuel text).1 = found ∧
      (cut fuel text).2 ++ more = joined left ∧ newline ∉ (cut fuel text).2 ∧
      (newline ∈ text → (cut fuel text).2.length < text.length) := by
  induction fuel generalizing lines text with
  | zero =>
    obtain rfl : text = [] := length_eq_zero_iff.mp (Nat.le_zero.mp enough)
    exact ⟨[], lines, rfl, rfl, whole, by simp [cut], by simp⟩
  | succ fuel induction =>
    by_cases absent : newline ∉ text
    · rw [cut_of_not_mem absent]
      exact ⟨[], lines, rfl, rfl, whole, absent, fun present => absurd present absent⟩
    cases lines with
    | nil =>
      obtain ⟨rfl, -⟩ := append_eq_nil_iff.mp whole
      exact absurd (by simp) absent
    | cons line lines =>
      rw [forall_mem_cons] at single noNul
      have parts : text ++ more = line ++ newline :: joined lines := by
        rw [whole, joined, flatMap_cons, append_assoc]
        rfl
      obtain ⟨text', rfl, tail⟩ : ∃ text', text = line ++ newline :: text' ∧
          text' ++ more = joined lines := by
        rcases append_eq_append_iff.mp parts with ⟨a, same, -⟩ | ⟨a, same, rest⟩
        · exact absurd (fun present => single.1 (same ▸ mem_append_left _ present)) absent
        · cases a with
          | nil =>
            rw [append_nil] at same
            exact absurd (same ▸ single.1) absent
          | cons b a =>
            obtain ⟨rfl, tail⟩ := List.cons.inj rest
            exact ⟨a, same, tail.symm⟩
      rw [length_append, length_cons] at enough
      obtain ⟨found, left, rfl, same, after, clean, shorter⟩ :=
        induction single.2 noNul.2 (by omega) tail
      have rest : (line ++ newline :: text').drop (line.length + 1) = text' := by simp
      rw [cut, strchr_append noNul.1 single.1 (by decide)]
      simp only [rest, take_left']
      refine ⟨line :: found, left, rfl, by rw [same], after, clean, fun _ => ?_⟩
      have length : (cut fuel text').2.length ≤ text'.length := by
        have := length_written_cut [] fuel text'
        omega
      rw [length_append, length_cons]
      omega

variable {chunks : List (List UInt8)} {held : List UInt8}

theorem grep_eq_written (pattern : List UInt8) (whole : held ++ chunks.flatten = joined lines)
    (start : newline ∉ held) (each : ∀ chunk ∈ chunks, newline ∈ chunk) :
    grep pattern held chunks = written pattern lines := by
  induction chunks generalizing held lines with
  | nil =>
    cases lines with
    | nil => rfl
    | cons line lines =>
      refine absurd ?_ start
      rw [flatten_nil, append_nil] at whole
      simp [whole, joined]
  | cons chunk chunks induction =>
    rw [forall_mem_cons] at each
    rw [flatten_cons, ← append_assoc] at whole
    obtain ⟨found, left, rfl, same, after, clean, shorter⟩ := cut_spec single noNul le_rfl whole
    have keeps : kept (held ++ chunk) = (cut (held ++ chunk).length (held ++ chunk)).2 :=
      if_neg (shorter (mem_append_right _ each.1)).ne
    rw [grep, same, keeps, induction (fun line member => single line (mem_append_right _ member))
      (fun line member => noNul line (mem_append_right _ member)) after clean each.2,
      written, written, written, flatMap_append]

theorem length_grep_lt (pattern : List UInt8) (whole : held ++ chunks.flatten = joined lines)
    (start : newline ∉ held) (nonempty : ∀ chunk ∈ chunks, chunk ≠ []) {chunk : List UInt8}
    (member : chunk ∈ chunks) (absent : newline ∉ chunk) :
    (grep pattern held chunks).length < (joined lines).length := by
  induction chunks generalizing held lines with
  | nil => exact absurd member not_mem_nil
  | cons first chunks induction =>
    rw [forall_mem_cons] at nonempty
    rw [flatten_cons, ← append_assoc] at whole
    rw [grep, length_append]
    by_cases ends : newline ∈ first
    · obtain ⟨found, left, rfl, same, after, clean, shorter⟩ := cut_spec single noNul le_rfl whole
      have keeps : kept (held ++ first) = (cut (held ++ first).length (held ++ first)).2 :=
        if_neg (shorter (mem_append_right _ ends)).ne
      have other : chunk ∈ chunks :=
        (mem_cons.mp member).resolve_left fun same => absent (same ▸ ends)
      have later := induction (fun line member => single line (mem_append_right _ member))
        (fun line member => noNul line (mem_append_right _ member)) after clean nonempty.2 other
      have here := length_written_cut pattern (held ++ first).length (held ++ first)
      have total := congrArg List.length whole
      have rest := congrArg List.length after
      rw [length_append] at total rest
      rw [keeps]
      omega
    · have none : newline ∉ held ++ first := by
        rw [mem_append, not_or]
        exact ⟨start, ends⟩
      have drops : kept (held ++ first) = [] := by
        rw [kept, cut_of_not_mem none]
        exact if_pos rfl
      have later := length_grep_le pattern [] chunks
      have positive := length_pos_iff.mpr nonempty.1
      rw [cut_of_not_mem none, drops, ← whole, length_append, length_append]
      change 0 + _ < _
      rw [length_nil] at later
      omega

/-- The start of a line is lost when the next chunk does not end it. -/
theorem grep_writes_matching_lines_iff {chunks : List (List UInt8)}
    (whole : chunks.flatten = joined lines) (delivered : Delivered [] chunks) :
    (∀ pattern, grep pattern [] chunks = written pattern lines) ↔
      ∀ chunk ∈ chunks, newline ∈ chunk := by
  have nonempty := delivered.nonempty
  constructor
  · intro right chunk member
    by_contra absent
    -- the empty pattern finds every line
    have loss := length_grep_lt single noNul [] whole not_mem_nil nonempty member absent
    rw [right [], written_nil] at loss
    exact absurd loss (lt_irrefl _)
  · intro each pattern
    exact grep_eq_written single noNul pattern whole not_mem_nil each

end

theorem grep_loses_start : grep (lit "b") [] [lit "a", lit "b\n"] = lit "b\n" ∧
    [lit "a", lit "b\n"].flatten = joined [lit "ab"] ∧ Delivered [] [lit "a", lit "b\n"] ∧
    written (lit "b") [lit "ab"] = lit "ab\n" := by
  refine ⟨by decide, by decide, ?_, by decide⟩
  exact ⟨by decide, by decide, by decide, by decide, trivial⟩

theorem grep_two_lines : grep (lit "c") [] [lit "a\nb", lit "c\n"] =
    written (lit "c") [lit "a", lit "bc"] := by
  refine (grep_writes_matching_lines_iff (by decide) (by decide) (by decide) ?_).mpr (by decide) _
  exact ⟨by decide, by decide, by decide, by decide, trivial⟩

end StraceXv6.User.Grep
