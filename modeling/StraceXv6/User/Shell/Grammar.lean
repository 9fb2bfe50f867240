import StraceXv6.User.Shell.Parser

namespace StraceXv6.User.Shell

open List Data

/-! The grammar of command lines over their tokens. -/

inductive Symbol where
  | bar
  | lparen
  | rparen
  | semi
  | amp
  | less
  | greater
  | append
  deriving DecidableEq

def Symbol.ret : Symbol → UInt8
  | .bar => '|'.toUInt8
  | .lparen => '('.toUInt8
  | .rparen => ')'.toUInt8
  | .semi => ';'.toUInt8
  | .amp => '&'.toUInt8
  | .less => '<'.toUInt8
  | .greater => '>'.toUInt8
  | .append => '+'.toUInt8

def Symbol.first : Symbol → UInt8
  | .append => '>'.toUInt8
  | symbol => symbol.ret

inductive Tok (α : Type) where
  | symbol (symbol : Symbol)
  | word (word : α)
  deriving DecidableEq

structure Redirection (α : Type) where
  file : α
  mode : Nat
  fd : Nat

def Symbol.redirection {α : Type} (file : α) : Symbol → Option (Redirection α)
  | .less => some ⟨file, 0, 0⟩
  | .greater => some ⟨file, 0x201, 1⟩
  | .append => some ⟨file, 0x201, 1⟩
  | _ => none

def Cmd.redirect {α : Type} (cmd : Cmd α) (redirs : List (Redirection α)) : Cmd α :=
  redirs.foldl (fun cmd redir => .redir cmd redir.file redir.mode redir.fd) cmd

/-- A command that is put in the background `n` times. -/
def Cmd.backs {α : Type} (cmd : Cmd α) : Nat → Cmd α
  | 0 => cmd
  | n + 1 => cmd.back.backs n

section

variable {α : Type}

/-- `redir*` with `redir ::= ('<' | '>' | '>>') word`. -/
inductive IsRedirs : List (Tok α) → List (Redirection α) → Prop where
  | nil : IsRedirs [] []
  | cons {symbol file redir ts redirs} : Symbol.redirection file symbol = some redir →
      IsRedirs ts redirs → IsRedirs (.symbol symbol :: .word file :: ts) (redir :: redirs)

/-- `(redir | word)*`, with the words and the redirections in their order. -/
inductive IsItems : List (Tok α) → List α → List (Redirection α) → Prop where
  | nil : IsItems [] [] []
  | word {word ts words redirs} : IsItems ts words redirs →
      IsItems (.word word :: ts) (word :: words) redirs
  | redir {symbol file redir ts words redirs} : Symbol.redirection file symbol = some redir →
      IsItems ts words redirs →
      IsItems (.symbol symbol :: .word file :: ts) words (redir :: redirs)

mutual

/-- `line ::= pipe '&'* [';' line]` -/
inductive IsLine : List (Tok α) → Cmd α → Prop where
  | last {ts cmd} (n : Nat) : IsPipe ts cmd →
      IsLine (ts ++ List.replicate n (.symbol .amp)) (cmd.backs n)
  | list {ts cmd us right} (n : Nat) : IsPipe ts cmd → IsLine us right →
      IsLine (ts ++ List.replicate n (.symbol .amp) ++ .symbol .semi :: us)
        (.list (cmd.backs n) right)

/-- `pipe ::= exec ['|' pipe]` -/
inductive IsPipe : List (Tok α) → Cmd α → Prop where
  | last {ts cmd} : IsExec ts cmd → IsPipe ts cmd
  | pipe {ts cmd us right} : IsExec ts cmd → IsPipe us right →
      IsPipe (ts ++ .symbol .bar :: us) (.pipe cmd right)

/-- `exec ::= '(' line ')' redir* | (redir | word)*`, with fewer than `MAXARGS` words. -/
inductive IsExec : List (Tok α) → Cmd α → Prop where
  | block {ts cmd us redirs} : IsLine ts cmd → IsRedirs us redirs →
      IsExec (.symbol .lparen :: ts ++ .symbol .rparen :: us) (cmd.redirect redirs)
  | simple {ts words redirs} : IsItems ts words redirs → words.length < maxargs →
      IsExec ts ((Cmd.exec words).redirect redirs)

end

theorem IsRedirs.items {ts us : List (Tok α)} {before after : List (Redirection α)}
    {words : List α} (redirs : IsRedirs ts before) (items : IsItems us words after) :
    IsItems (ts ++ us) words (before ++ after) := by
  induction redirs with
  | nil => exact items
  | cons kind _ induction => exact .redir kind induction

end

def Symbol.all : List Symbol := [.bar, .lparen, .rparen, .semi, .amp, .less, .greater, .append]

theorem Symbol.mem_all (symbol : Symbol) : symbol ∈ Symbol.all := by
  cases symbol <;> decide

def slice (text : List UInt8) (span : Span) : List UInt8 :=
  (text.drop span.q).take (span.eq - span.q)

def Token.tok (text : List UInt8) (token : Token) : Tok (List UInt8) :=
  match Symbol.all.find? fun symbol => symbol.ret = token.ret with
  | some symbol => .symbol symbol
  | none => .word (slice text ⟨token.q, token.eq⟩)

def tokensFrom (text : List UInt8) : Nat → Nat → List (Tok (List UInt8))
  | 0, _ => []
  | fuel + 1, s =>
    if (gettoken text s).ret = 0 then []
    else (gettoken text s).tok text :: tokensFrom text fuel (gettoken text s).next

/-- What `gettoken` returns from `s` on, until it returns 0. -/
def tokens (text : List UInt8) (s : Nat) : List (Tok (List UInt8)) :=
  tokensFrom text (text.length + 1) s

def isPlain (c : UInt8) : Bool := !isWhitespace c && !isSymbol c

structure IsSpan (text : List UInt8) (span : Span) : Prop where
  ordered : span.q ≤ span.eq
  inside : span.eq ≤ text.length
  plain : ∀ {i}, span.q ≤ i → i < span.eq → isPlain (charAt text i) = true
  ends : span.eq < text.length → isPlain (charAt text span.eq) = false

section

variable {text : List UInt8} {s : Nat}

theorem gettoken_skip (text : List UInt8) (s : Nat) :
    gettoken text (skip text s) = gettoken text s := by
  simp only [gettoken, skip_skip]

theorem ret_eq_zero_iff : (gettoken text s).ret = 0 ↔ charAt text (skip text s) = 0 := by
  change (scan text (skip text s)).1 = 0 ↔ _
  constructor
  · intro zero
    by_contra more
    exact (scan_advances more (charAt_skip_not_whitespace more)).1 zero
  · intro ends
    rw [scan_end ends]

theorem tokensFrom_congr (fuel fuel' : Nat) (enough : text.length - s < fuel)
    (enough' : text.length - s < fuel') : tokensFrom text fuel s = tokensFrom text fuel' s := by
  induction fuel generalizing s fuel' with
  | zero => exact absurd enough (Nat.not_lt_zero _)
  | succ fuel induction =>
    cases fuel' with
    | zero => exact absurd enough' (Nat.not_lt_zero _)
    | succ fuel' =>
      rw [tokensFrom, tokensFrom]
      split
      next => rfl
      next more =>
        rw [ret_eq_zero_iff] at more
        have advance := lt_gettoken_next more
        have start := lt_length_of_charAt_ne more
        have skipped := le_skip text s
        rw [induction fuel' (by omega) (by omega)]

theorem tokens_nil (ends : charAt text (skip text s) = 0) : tokens text s = [] := by
  rw [tokens, tokensFrom, if_pos (ret_eq_zero_iff.mpr ends)]

theorem tokens_cons (more : charAt text (skip text s) ≠ 0) :
    tokens text s = (gettoken text s).tok text :: tokens text (gettoken text s).next := by
  have advance := lt_gettoken_next more
  have start := lt_length_of_charAt_ne more
  have skipped := le_skip text s
  rw [tokens, tokensFrom, if_neg (mt ret_eq_zero_iff.mp more), tokens,
    tokensFrom_congr text.length (text.length + 1) (by omega) (by omega)]

theorem tokens_skip (text : List UInt8) (s : Nat) : tokens text (skip text s) = tokens text s := by
  rw [tokens, tokens, tokensFrom, tokensFrom, gettoken_skip]

theorem Symbol.find_ret (symbol : Symbol) :
    Symbol.all.find? (fun other => other.ret = symbol.ret) = some symbol := by
  cases symbol <;> decide

variable {q : Nat} {line toks : List UInt8} {rest : List (Tok (List UInt8))}

theorem scan_symbol (isSymbol_ : isSymbol (charAt text q) = true) :
    ∃ symbol : Symbol, charAt text q = symbol.first ∧ (scan text q).1 = symbol.ret := by
  have nonzero : charAt text q ≠ 0 := by
    intro zero
    rw [zero] at isSymbol_
    cases isSymbol_
  simp only [scan, if_neg nonzero]
  rcases (isSymbol_iff _).mp isSymbol_ with single | redirect
  · have listed : ∀ c ∈ lit "|();&<", ∃ symbol : Symbol, c = symbol.first ∧ c = symbol.ret := by
      intro c member
      have bytes : lit "|();&<" = [Symbol.ret .bar, Symbol.ret .lparen, Symbol.ret .rparen,
        Symbol.ret .semi, Symbol.ret .amp, Symbol.ret .less] := by decide
      rw [bytes] at member
      simp only [mem_cons, not_mem_nil, or_false] at member
      rcases member with rfl | rfl | rfl | rfl | rfl | rfl
      · exact ⟨.bar, rfl, rfl⟩
      · exact ⟨.lparen, rfl, rfl⟩
      · exact ⟨.rparen, rfl, rfl⟩
      · exact ⟨.semi, rfl, rfl⟩
      · exact ⟨.amp, rfl, rfl⟩
      · exact ⟨.less, rfl, rfl⟩
    rw [if_pos single]
    exact listed _ (contains_iff_mem.mp single)
  · have other : ¬(lit "|();&<").contains (charAt text q) = true := by
      rw [redirect]
      decide
    rw [if_neg other, if_pos redirect]
    split
    next => exact ⟨.append, redirect, rfl⟩
    next => exact ⟨.greater, redirect, redirect⟩

theorem charAt_drop (text : List UInt8) (q i : Nat) :
    charAt (text.drop q) i = charAt text (q + i) := by
  rw [charAt, charAt, getD_eq_getElem?_getD, getD_eq_getElem?_getD, List.getElem?_drop]

theorem isPlain_of_lt {i : Nat} (before : i < (line.takeWhile isPlain).length) :
    isPlain (charAt line i) = true := by
  induction line generalizing i with
  | nil => exact absurd before (Nat.not_lt_zero i)
  | cons c rest induction =>
    cases here : isPlain c with
    | false =>
      rw [takeWhile_cons_of_neg (by rw [here]; exact Bool.false_ne_true)] at before
      exact absurd before (Nat.not_lt_zero i)
    | true =>
      rw [takeWhile_cons_of_pos here, length_cons] at before
      cases i with
      | zero => exact here
      | succ i => exact induction (Nat.lt_of_succ_lt_succ before)

theorem isPlain_takeWhile (more : (line.takeWhile isPlain).length < line.length) :
    isPlain (charAt line (line.takeWhile isPlain).length) = false := by
  induction line with
  | nil => exact absurd more (Nat.lt_irrefl 0)
  | cons c rest induction =>
    cases here : isPlain c with
    | false =>
      rw [takeWhile_cons_of_neg (by rw [here]; exact Bool.false_ne_true)]
      exact here
    | true =>
      rw [takeWhile_cons_of_pos here, length_cons] at more ⊢
      exact induction (Nat.lt_of_succ_lt_succ more)

/-- The bytes that `wordEnd` goes over, and the one where it stops. -/
theorem isSpan_wordEnd (inside : q ≤ text.length) :
    IsSpan text ⟨q, wordEnd text q⟩ where
  ordered := Nat.le_add_right _ _
  inside := wordEnd_le inside
  plain := by
    intro i start before
    obtain ⟨k, rfl⟩ := Nat.exists_eq_add_of_le start
    rw [← charAt_drop]
    exact isPlain_of_lt (Nat.lt_of_add_lt_add_left before)
  ends := by
    intro more
    change q + ((text.drop q).takeWhile isPlain).length < text.length at more
    change isPlain (charAt text (q + ((text.drop q).takeWhile isPlain).length)) = false
    rw [← charAt_drop]
    apply isPlain_takeWhile
    rw [length_drop]
    omega

inductive Sees (text : List UInt8) (s : Nat) : Prop where
  | nothing (ends : charAt text (skip text s) = 0)
  | symbol (symbol : Symbol) (first : charAt text (skip text s) = symbol.first)
      (ret : (gettoken text s).ret = symbol.ret)
      (tokens_eq : tokens text s = .symbol symbol :: tokens text (gettoken text s).next)
  | word (nonzero : charAt text (skip text s) ≠ 0)
      (plain : isSymbol (charAt text (skip text s)) = false)
      (ret : (gettoken text s).ret = 'a'.toUInt8)
      (span : IsSpan text ⟨(gettoken text s).q, (gettoken text s).eq⟩)
      (tokens_eq : tokens text s =
        .word (slice text ⟨(gettoken text s).q, (gettoken text s).eq⟩) ::
          tokens text (gettoken text s).next)

theorem sees (text : List UInt8) (s : Nat) : Sees text s := by
  by_cases ends : charAt text (skip text s) = 0
  · exact .nothing ends
  have cons := tokens_cons ends
  cases plain : isSymbol (charAt text (skip text s)) with
  | true =>
    obtain ⟨symbol, first, ret⟩ := scan_symbol plain
    have ret' : (gettoken text s).ret = symbol.ret := ret
    refine .symbol symbol first ret' ?_
    rw [cons, Token.tok, ret', symbol.find_ret]
  | false =>
    have scanned := scan_word ends plain
    have ret : (gettoken text s).ret = 'a'.toUInt8 := congrArg Prod.fst scanned
    have finish : (gettoken text s).eq = wordEnd text (skip text s) := congrArg Prod.snd scanned
    have none : Symbol.all.find? (fun symbol => symbol.ret = 'a'.toUInt8) = none := by decide
    refine .word ends plain ret ?_ ?_
    · rw [finish]
      exact isSpan_wordEnd (lt_length_of_charAt_ne ends).le
    · rw [cons, Token.tok, ret, none]

def peeks {α : Type} (toks : List UInt8) : List (Tok α) → Bool
  | .symbol symbol :: _ => toks.contains symbol.first
  | _ => false

theorem Symbol.first_ne_zero (symbol : Symbol) : symbol.first ≠ 0 := by
  cases symbol <;> decide

theorem peek_eq (operators : toks.all isSymbol = true) :
    peek text s toks = (skip text s, peeks toks (tokens text s)) := by
  rw [peek]
  cases sees text s with
  | nothing ends =>
    rw [tokens_nil ends, ends]
    rfl
  | symbol symbol first ret tokens_eq =>
    rw [tokens_eq, first]
    simp [peeks, symbol.first_ne_zero]
  | word nonzero plain ret span tokens_eq =>
    have absent : toks.contains (charAt text (skip text s)) = false := by
      rw [← Bool.not_eq_true, contains_iff_mem]
      intro member
      rw [all_eq_true.mp operators _ member] at plain
      cases plain
    rw [tokens_eq, absent, Bool.and_false]
    rfl

theorem lt_length_of_tokens {tok : Tok (List UInt8)} (here : tokens text s = tok :: rest) :
    s < text.length := by
  have more : charAt text (skip text s) ≠ 0 := by
    intro ends
    rw [tokens_nil ends] at here
    exact absurd here.symm (cons_ne_nil _ _)
  exact (le_skip text s).trans_lt (lt_length_of_charAt_ne more)

theorem symbol_next {symbol : Symbol} (here : tokens text s = .symbol symbol :: rest) :
    (gettoken text s).ret = symbol.ret ∧ tokens text (gettoken text s).next = rest ∧
      s < (gettoken text s).next := by
  cases sees text s with
  | nothing ends =>
    rw [tokens_nil ends] at here
    exact absurd here.symm (cons_ne_nil _ _)
  | symbol other first ret tokens_eq =>
    rw [tokens_eq] at here
    obtain ⟨same, rest_eq⟩ := List.cons.inj here
    obtain rfl := Tok.symbol.inj same
    exact ⟨ret, rest_eq, lt_gettoken_next (by rw [first]; exact other.first_ne_zero)⟩
  | word nonzero plain ret span tokens_eq =>
    rw [tokens_eq] at here
    exact absurd (List.cons.inj here).1 (by simp)

theorem word_next {word : List UInt8} (here : tokens text s = .word word :: rest) :
    (gettoken text s).ret = 'a'.toUInt8 ∧
      slice text ⟨(gettoken text s).q, (gettoken text s).eq⟩ = word ∧
      tokens text (gettoken text s).next = rest ∧ s < (gettoken text s).next := by
  cases sees text s with
  | nothing ends =>
    rw [tokens_nil ends] at here
    exact absurd here.symm (cons_ne_nil _ _)
  | symbol other first ret tokens_eq =>
    rw [tokens_eq] at here
    exact absurd (List.cons.inj here).1 (by simp)
  | word nonzero plain ret span tokens_eq =>
    rw [tokens_eq] at here
    obtain ⟨same, rest_eq⟩ := List.cons.inj here
    exact ⟨ret, Tok.word.inj same, rest_eq, lt_gettoken_next nonzero⟩

theorem nil_next (here : tokens text s = []) :
    (gettoken text s).ret = 0 ∧ tokens text (gettoken text s).next = [] := by
  cases sees text s with
  | nothing ends =>
    have next : (gettoken text s).next = skip text s := by
      change skip text (scan text (skip text s)).2 = _
      rw [scan_end ends, skip_skip]
    rw [next, tokens_skip]
    exact ⟨ret_eq_zero_iff.mpr ends, here⟩
  | symbol other first ret tokens_eq | word nonzero plain ret span tokens_eq =>
    rw [tokens_eq] at here
    exact absurd here (cons_ne_nil _ _)

theorem exists_symbol (found : peeks toks (tokens text s) = true) :
    ∃ symbol, toks.contains symbol.first = true ∧ (gettoken text s).ret = symbol.ret ∧
      tokens text s = .symbol symbol :: tokens text (gettoken text s).next := by
  cases sees text s with
  | nothing ends =>
    rw [tokens_nil ends] at found
    cases found
  | symbol symbol first ret tokens_eq =>
    rw [tokens_eq] at found
    exact ⟨symbol, found, ret, tokens_eq⟩
  | word nonzero plain ret span tokens_eq =>
    rw [tokens_eq] at found
    cases found

theorem tokens_eq_nil_iff (line : (0 : UInt8) ∉ text) (inside : s ≤ text.length) :
    tokens text s = [] ↔ skip text s = text.length := by
  have within := skip_le inside
  constructor
  · intro none
    have ends := ret_eq_zero_iff.mp (nil_next none).1
    by_contra other
    have before : skip text s < text.length := by omega
    apply line
    rw [← ends, charAt, getD_eq_getElem?_getD, List.getElem?_eq_getElem before]
    exact getElem_mem before
  · intro ends
    apply tokens_nil
    rw [ends, charAt, getD_eq_getElem?_getD, List.getElem?_eq_none (Nat.le_refl _)]
    rfl

end

end StraceXv6.User.Shell
