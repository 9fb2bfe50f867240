import StraceXv6.Data.CString

namespace StraceXv6.User.Shell

open List Data

/-! The tokens of a command line.  A line is the list of its bytes before the
NUL, and pointers into it are offsets. -/

def whitespace : List UInt8 := lit " \t\r\n\x0b"

def symbols : List UInt8 := lit "<|>&;()"

def isWhitespace (c : UInt8) : Bool := whitespace.contains c

def isSymbol (c : UInt8) : Bool := symbols.contains c

/-- The byte a pointer refers to; the end of the line holds the NUL. -/
def charAt (text : List UInt8) (s : Nat) : UInt8 := text.getD s 0

/-- `while (s < es && strchr(whitespace, *s)) s++` -/
def skip (text : List UInt8) (s : Nat) : Nat :=
  s + ((text.drop s).takeWhile isWhitespace).length

def wordEnd (text : List UInt8) (s : Nat) : Nat :=
  s + ((text.drop s).takeWhile fun c => !isWhitespace c && !isSymbol c).length

structure Token where
  ret : UInt8
  q : Nat
  eq : Nat
  next : Nat

/-- The switch on the first byte of a token: its kind and its end. -/
def scan (text : List UInt8) (q : Nat) : UInt8 × Nat :=
  let c := charAt text q
  if c = 0 then (0, q)
  else if (lit "|();&<").contains c then (c, q + 1)
  else if c = '>'.toUInt8 then
    if charAt text (q + 1) = '>'.toUInt8 then ('+'.toUInt8, q + 2) else (c, q + 1)
  else ('a'.toUInt8, wordEnd text q)

def gettoken (text : List UInt8) (ps : Nat) : Token :=
  let q := skip text ps
  let (ret, eq) := scan text q
  ⟨ret, q, eq, skip text eq⟩

def peek (text : List UInt8) (ps : Nat) (toks : List UInt8) : Nat × Bool :=
  let s := skip text ps
  (s, charAt text s ≠ 0 && toks.contains (charAt text s))

theorem le_skip (text : List UInt8) (s : Nat) : s ≤ skip text s :=
  Nat.le_add_right _ _

variable {s q : Nat} {text : List UInt8}

theorem skip_le (inside : s ≤ text.length) : skip text s ≤ text.length := by
  have short := ( takeWhile_prefix isWhitespace (l := text.drop s)).length_le
  rw [length_drop] at short
  unfold skip
  omega

private theorem drop_length_takeWhile {α : Type*} (stops : α → Bool) (text : List α) :
    text.drop (text.takeWhile stops).length = text.dropWhile stops := by
  induction text with
  | nil => rfl
  | cons c rest induction =>
    cases here : stops c with
    | false => simp [here]
    | true => simpa [here] using induction

theorem drop_skip (text : List UInt8) (s : Nat) :
    text.drop (skip text s) = (text.drop s).dropWhile isWhitespace := by
  rw [skip, ← drop_drop, drop_length_takeWhile]

theorem skip_skip (text : List UInt8) (s : Nat) :
    skip text (skip text s) = skip text s := by
  have nothing : ((text.drop (skip text s)).takeWhile isWhitespace) = [] := by
    rw [drop_skip]
    cases rest : (text.drop s).dropWhile isWhitespace with
    | nil => rfl
    | cons c rest' =>
      have stopped := List.head?_dropWhile_not isWhitespace (text.drop s)
      simp only [rest, List.head?_cons] at stopped
      simp [stopped]
  rw [skip, nothing]
  rfl

theorem charAt_eq_head (text : List UInt8) (s : Nat) :
    charAt text s = (text.drop s).headD 0 := by
  rw [charAt, getD_eq_getElem?_getD, headD_eq_head?_getD, List.head?_drop]

theorem lt_length_of_charAt_ne (nonzero : charAt text s ≠ 0) : s < text.length := by
  by_contra beyond
  apply nonzero
  rw [charAt, getD_eq_getElem?_getD, List.getElem?_eq_none (by omega)]
  rfl

theorem wordEnd_le (inside : s ≤ text.length) : wordEnd text s ≤ text.length := by
  have short := ( takeWhile_prefix
    (fun c => !isWhitespace c && !isSymbol c) (l := text.drop s)).length_le
  rw [length_drop] at short
  unfold wordEnd
  omega

theorem charAt_skip_not_whitespace (nonzero : charAt text (skip text s) ≠ 0) :
    isWhitespace (charAt text (skip text s)) = false := by
  rw [charAt_eq_head, drop_skip] at nonzero ⊢
  have stopped := List.head?_dropWhile_not isWhitespace (text.drop s)
  cases rest : (text.drop s).dropWhile isWhitespace with
  | nil => simp [rest] at nonzero
  | cons c rest' => simpa [rest] using stopped

theorem lt_wordEnd (nonzero : charAt text s ≠ 0) (visible : isWhitespace (charAt text s) = false)
    (plain : isSymbol (charAt text s) = false) : s < wordEnd text s := by
  rw [charAt_eq_head] at nonzero visible plain
  unfold wordEnd
  cases rest : text.drop s with
  | nil => simp [rest] at nonzero
  | cons c rest' =>
    simp only [rest, headD_cons] at visible plain
    simp [visible, plain]

theorem isSymbol_iff (c : UInt8) :
    isSymbol c = true ↔ (lit "|();&<").contains c = true ∨ c = '>'.toUInt8 := by
  have all : symbols = [60, 124, 62, 38, 59, 40, 41] := by decide
  have single : lit "|();&<" = [124, 40, 41, 59, 38, 60] := by decide
  have redirect : '>'.toUInt8 = 62 := by decide
  rw [isSymbol, all, single, redirect]
  simp only [contains_iff_mem, mem_cons, not_mem_nil, or_false]
  tauto

theorem scan_end (ends : charAt text q = 0) : scan text q = (0, q) := by
  simp [scan, ends]

theorem scan_word (nonzero : charAt text q ≠ 0) (plain : isSymbol (charAt text q) = false) :
    scan text q = ('a'.toUInt8, wordEnd text q) := by
  rw [← Bool.not_eq_true, isSymbol_iff, not_or] at plain
  simp only [scan]
  rw [if_neg nonzero, if_neg plain.1, if_neg plain.2]

theorem scan_advances (nonzero : charAt text q ≠ 0)
    (visible : isWhitespace (charAt text q) = false) :
    (scan text q).1 ≠ 0 ∧ q < (scan text q).2 ∧ (scan text q).2 ≤ text.length := by
  have start := lt_length_of_charAt_ne nonzero
  cases plain : isSymbol (charAt text q) with
  | false =>
    rw [scan_word nonzero plain]
    exact ⟨(by decide : 'a'.toUInt8 ≠ 0), lt_wordEnd nonzero visible plain,
      wordEnd_le start.le⟩
  | true =>
    rw [isSymbol_iff] at plain
    simp only [scan]
    rw [if_neg nonzero]
    split
    next => exact ⟨nonzero, by simp only; omega, by simp only; omega⟩
    next other =>
      have redirect := plain.resolve_left other
      rw [if_pos redirect]
      split
      next double =>
        have second := lt_length_of_charAt_ne
          (by rw [double]; decide : charAt text (q + 1) ≠ 0)
        exact ⟨(by decide : '+'.toUInt8 ≠ 0), by simp only; omega,
          by simp only; omega⟩
      next => exact ⟨nonzero, by simp only; omega, by simp only; omega⟩

theorem gettoken_next_le (inside : s ≤ text.length) : (gettoken text s).next ≤ text.length := by
  change skip text (scan text (skip text s)).2 ≤ _
  by_cases ends : charAt text (skip text s) = 0
  · rw [scan_end ends]
    exact skip_le (skip_le inside)
  · exact skip_le (scan_advances ends (charAt_skip_not_whitespace ends)).2.2

theorem le_gettoken_next (text : List UInt8) (s : Nat) :
    s ≤ (gettoken text s).next := by
  by_cases ends : charAt text (skip text s) = 0
  · change s ≤ skip text (scan text (skip text s)).2
    rw [scan_end ends]
    exact (le_skip text s).trans (le_skip text _)
  · have advances := (scan_advances ends (charAt_skip_not_whitespace ends)).2.1
    exact (le_skip text s).trans (advances.le.trans (le_skip text _))

theorem lt_gettoken_next (more : charAt text (skip text s) ≠ 0) : s < (gettoken text s).next := by
  have advances := (scan_advances more (charAt_skip_not_whitespace more)).2.1
  have start := le_skip text s
  have finish := le_skip text (scan text (skip text s)).2
  change s < skip text (scan text (skip text s)).2
  omega

end StraceXv6.User.Shell
