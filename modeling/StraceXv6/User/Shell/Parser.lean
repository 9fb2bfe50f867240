import StraceXv6.User.Shell.Lexer

namespace StraceXv6.User.Shell

open Data

def maxargs : Nat := 10

/-- A parsed command over its strings, which are spans of the line while it is
parsed and texts once `nulterminate` has run. -/
inductive Cmd (α : Type) where
  | exec (argv : List α)
  | redir (cmd : Cmd α) (file : α) (mode fd : Nat)
  | pipe (left right : Cmd α)
  | list (left right : Cmd α)
  | back (cmd : Cmd α)
  deriving DecidableEq

structure Span where
  q : Nat
  eq : Nat

inductive Panic where
  | syntaxError
  | missingFile
  | parseblock
  | missingParen
  | tooManyArgs
  deriving DecidableEq

def Panic.message : Panic → List UInt8
  | .syntaxError => lit "syntax"
  | .missingFile => lit "missing file for redirection"
  | .parseblock => lit "parseblock"
  | .missingParen => lit "syntax - missing )"
  | .tooManyArgs => lit "too many args"

/-- Why there is no command; `fuel` does not happen from `parsecmd`. -/
inductive Stop where
  | panic (reason : Panic)
  | fuel
  deriving DecidableEq

structure Redir where
  file : Span
  mode : Nat
  fd : Nat

def Cmd.wrap (cmd : Cmd Span) (redirs : List Redir) : Cmd Span :=
  redirs.foldl (fun cmd redir => .redir cmd redir.file redir.mode redir.fd) cmd

def Redir.of (tok : UInt8) (file : Span) : Redir :=
  if tok = '<'.toUInt8 then ⟨file, 0, 0⟩ else ⟨file, 0x201, 1⟩

section

variable (text : List UInt8)

def parseredirs : Nat → Nat → Except Stop (List Redir × Nat)
  | 0, _ => .error .fuel
  | fuel + 1, ps =>
    let (ps, more) := peek text ps (lit "<>")
    if more then
      let tok := gettoken text ps
      let file := gettoken text tok.next
      if file.ret ≠ 'a'.toUInt8 then .error (.panic .missingFile)
      else do
        let (redirs, ps) ← parseredirs fuel file.next
        return (.of tok.ret ⟨file.q, file.eq⟩ :: redirs, ps)
    else .ok ([], ps)

/-- The loop of `parseexec` from argument `argc` on. -/
def parseargs : Nat → Nat → Nat → Except Stop (List Span × List Redir × Nat)
  | 0, _, _ => .error .fuel
  | fuel + 1, argc, ps =>
    let (ps, stop) := peek text ps (lit "|)&;")
    if stop then .ok ([], [], ps)
    else
      let tok := gettoken text ps
      if tok.ret = 0 then .ok ([], [], tok.next)
      else if tok.ret ≠ 'a'.toUInt8 then .error (.panic .syntaxError)
      else if argc + 1 ≥ maxargs then .error (.panic .tooManyArgs)
      else do
        let (redirs, ps) ← parseredirs text (text.length + 1) tok.next
        let (argv, more, ps) ← parseargs fuel (argc + 1) ps
        return (⟨tok.q, tok.eq⟩ :: argv, redirs ++ more, ps)

def parsebacks : Nat → Cmd Span → Nat → Except Stop (Cmd Span × Nat)
  | 0, _, _ => .error .fuel
  | fuel + 1, cmd, ps =>
    let (ps, more) := peek text ps (lit "&")
    if more then parsebacks fuel (.back cmd) (gettoken text ps).next
    else .ok (cmd, ps)

mutual

def parseline : Nat → Nat → Except Stop (Cmd Span × Nat)
  | 0, _ => .error .fuel
  | fuel + 1, ps => do
    let (cmd, ps) ← parsepipe fuel ps
    let (cmd, ps) ← parsebacks text (text.length + 1) cmd ps
    let (ps, more) := peek text ps (lit ";")
    if more then
      let (right, ps) ← parseline fuel (gettoken text ps).next
      return (.list cmd right, ps)
    else return (cmd, ps)

def parsepipe : Nat → Nat → Except Stop (Cmd Span × Nat)
  | 0, _ => .error .fuel
  | fuel + 1, ps => do
    let (cmd, ps) ← parseexec fuel ps
    let (ps, more) := peek text ps (lit "|")
    if more then
      let (right, ps) ← parsepipe fuel (gettoken text ps).next
      return (.pipe cmd right, ps)
    else return (cmd, ps)

def parseexec : Nat → Nat → Except Stop (Cmd Span × Nat)
  | 0, _ => .error .fuel
  | fuel + 1, ps =>
    let (ps, block) := peek text ps (lit "(")
    if block then parseblock fuel ps
    else do
      let (redirs, ps) ← parseredirs text (text.length + 1) ps
      let (argv, more, ps) ← parseargs text (text.length + 1) 0 ps
      return ((Cmd.exec argv).wrap (redirs ++ more), ps)

def parseblock : Nat → Nat → Except Stop (Cmd Span × Nat)
  | 0, _ => .error .fuel
  | fuel + 1, ps =>
    let (ps, opens) := peek text ps (lit "(")
    if opens then do
      let (cmd, ps) ← parseline fuel (gettoken text ps).next
      let (ps, closes) := peek text ps (lit ")")
      if closes then
        let (redirs, ps) ← parseredirs text (text.length + 1) (gettoken text ps).next
        return (cmd.wrap redirs, ps)
      else .error (.panic .missingParen)
    else .error (.panic .parseblock)

end

end

def Cmd.map {α β : Type} (f : α → β) : Cmd α → Cmd β
  | .exec argv => .exec (argv.map f)
  | .redir cmd file mode fd => .redir (cmd.map f) (f file) mode fd
  | .pipe left right => .pipe (left.map f) (right.map f)
  | .list left right => .list (left.map f) (right.map f)
  | .back cmd => .back (cmd.map f)

def Cmd.ends : Cmd Span → List Nat
  | .exec argv => argv.map Span.eq
  | .redir cmd file _ _ => cmd.ends ++ [file.eq]
  | .pipe left right => left.ends ++ right.ends
  | .list left right => left.ends ++ right.ends
  | .back cmd => cmd.ends

def nulterminate (cmd : Cmd Span) (buffer : List UInt8) : List UInt8 :=
  cmd.ends.foldl (fun buffer eq => buffer.set eq 0) buffer

/-- The command with its strings as they read after `nulterminate`. -/
def parsecmd (text : List UInt8) : Except Stop (Cmd (List UInt8)) := do
  let (cmd, s) ← parseline text (4 * text.length + 4) 0
  let (s, _) := peek text s []
  if s ≠ text.length then .error (.panic .syntaxError)
  else return cmd.map fun span => cstr ((nulterminate cmd (text ++ [0])).drop span.q)

section

variable {text : List UInt8} {α β : Type}

/-- A result that did not run out of fuel and left the pointer within the line,
not before `s`. -/
def Advances (text : List UInt8) (s : Nat) (position : α → Nat) : Except Stop α → Prop
  | .ok value => s ≤ position value ∧ position value ≤ text.length
  | .error stop => stop ≠ .fuel

variable {early late s fuel : Nat} {position : α → Nat} {result : Except Stop α} {toks : List UInt8}

theorem Advances.bind {further : β → Nat} {next : α → Except Stop β}
    (first : Advances text late position result)
    (second : ∀ value, late ≤ position value → position value ≤ text.length →
      Advances text early further (next value)) :
    Advances text early further (result >>= next) := by
  cases result with
  | error stop => exact first
  | ok value => exact second value first.1 first.2

theorem Advances.mono (order : early ≤ late) (advances : Advances text late position result) :
    Advances text early position result := by
  cases result with
  | error stop => exact advances
  | ok value => exact ⟨order.trans advances.1, advances.2⟩

theorem charAt_ne_of_peek (found : (peek text s toks).2 = true) :
    charAt text (skip text s) ≠ 0 := by
  simp only [peek, Bool.and_eq_true, decide_eq_true_eq] at found
  exact found.1

theorem peeked_next (inside : s ≤ text.length) (found : (peek text s toks).2 = true) :
    s < (gettoken text (peek text s toks).1).next ∧
      (gettoken text (peek text s toks).1).next ≤ text.length := by
  have nonzero := charAt_ne_of_peek found
  have start := le_skip text s
  have advance : skip text s < (gettoken text (skip text s)).next :=
    lt_gettoken_next (by rw [skip_skip]; exact nonzero)
  exact ⟨start.trans_lt advance, gettoken_next_le (skip_le inside)⟩

theorem advances_parseredirs (inside : s ≤ text.length) (enough : text.length - s < fuel) :
    Advances text s Prod.snd (parseredirs text fuel s) := by
  induction fuel generalizing s with
  | zero => omega
  | succ fuel induction =>
    simp only [parseredirs]
    split
    next found =>
      obtain ⟨advance, within⟩ := peeked_next inside found
      have order := le_gettoken_next text (gettoken text (peek text s (lit "<>")).1).next
      have file := gettoken_next_le within
      split
      next => exact nofun
      next =>
        refine (induction file (by omega)).bind ?_
        rintro ⟨redirs, ps⟩ lower upper
        exact ⟨by simp only at lower ⊢; omega, upper⟩
    next => exact ⟨le_skip text s, skip_le inside⟩

theorem advances_parseargs {argc : Nat} (inside : s ≤ text.length)
    (enough : text.length - s < fuel) :
    Advances text s (fun value => value.2.2) (parseargs text fuel argc s) := by
  induction fuel generalizing argc s with
  | zero => omega
  | succ fuel induction =>
    simp only [parseargs]
    have start := le_skip text s
    have within := skip_le inside
    have next := gettoken_next_le within
    split
    next => exact ⟨start, within⟩
    next =>
      split
      next =>
        exact ⟨start.trans (le_gettoken_next text (skip text s)), next⟩
      next token =>
        have advance : skip text s < (gettoken text (skip text s)).next := by
          apply lt_gettoken_next
          intro ends
          apply token
          change (scan text (skip text (skip text s))).1 = 0
          rw [scan_end ends]
        split
        next => exact nofun
        next =>
          split
          next => exact nofun
          next =>
            refine (advances_parseredirs next (by omega)).bind ?_
            rintro ⟨redirs, ps⟩ lower upper
            simp only at lower upper
            refine (induction upper (by omega)).bind ?_
            rintro ⟨argv, more, last⟩ after bound
            exact ⟨by simp only at after ⊢; omega, bound⟩

theorem advances_parsebacks (cmd : Cmd Span) (inside : s ≤ text.length)
    (enough : text.length - s < fuel) : Advances text s Prod.snd (parsebacks text fuel cmd s) := by
  induction fuel generalizing cmd s with
  | zero => omega
  | succ fuel induction =>
    simp only [parsebacks]
    split
    next found =>
      obtain ⟨advance, within⟩ := peeked_next inside found
      exact (induction _ within (by omega)).mono advance.le
    next => exact ⟨le_skip text s, skip_le inside⟩

private theorem advances_parse (fuel : Nat) :
    (∀ s ≤ text.length, 4 * (text.length - s) + 4 ≤ fuel →
      Advances text s Prod.snd (parseline text fuel s)) ∧
    (∀ s ≤ text.length, 4 * (text.length - s) + 3 ≤ fuel →
      Advances text s Prod.snd (parsepipe text fuel s)) ∧
    (∀ s ≤ text.length, 4 * (text.length - s) + 2 ≤ fuel →
      Advances text s Prod.snd (parseexec text fuel s)) ∧
    ∀ s ≤ text.length, 4 * (text.length - s) + 1 ≤ fuel →
      Advances text s Prod.snd (parseblock text fuel s) := by
  induction fuel with
  | zero => exact ⟨fun _ _ _ => by omega, fun _ _ _ => by omega, fun _ _ _ => by omega,
      fun _ _ _ => by omega⟩
  | succ fuel induction =>
    obtain ⟨line, pipe, exec, block⟩ := induction
    refine ⟨?_, ?_, ?_, ?_⟩
    · intro s inside enough
      simp only [parseline]
      refine (pipe s inside (by omega)).bind ?_
      rintro ⟨cmd, ps⟩ lower upper
      simp only at lower upper
      refine (advances_parsebacks cmd upper (by omega)).bind ?_
      rintro ⟨cmd, ps'⟩ lower' upper'
      simp only at lower' upper' ⊢
      split
      next found =>
        obtain ⟨advance, within⟩ := peeked_next upper' found
        refine (line _ within (by omega)).bind ?_
        rintro ⟨right, last⟩ after bound
        exact ⟨by simp only at after ⊢; omega, bound⟩
      next =>
        have start := le_skip text ps'
        exact ⟨lower.trans (lower'.trans start), skip_le upper'⟩
    · intro s inside enough
      simp only [parsepipe]
      refine (exec s inside (by omega)).bind ?_
      rintro ⟨cmd, ps⟩ lower upper
      simp only at lower upper ⊢
      split
      next found =>
        obtain ⟨advance, within⟩ := peeked_next upper found
        refine (pipe _ within (by omega)).bind ?_
        rintro ⟨right, last⟩ after bound
        exact ⟨by simp only at after ⊢; omega, bound⟩
      next => exact ⟨lower.trans (le_skip text ps), skip_le upper⟩
    · intro s inside enough
      simp only [parseexec]
      have start := le_skip text s
      have within := skip_le inside
      split
      next => exact (block _ within (by omega)).mono start
      next =>
        refine (advances_parseredirs within (by omega)).bind ?_
        rintro ⟨redirs, ps⟩ lower upper
        simp only at lower upper
        refine (advances_parseargs upper (by omega)).bind ?_
        rintro ⟨argv, more, last⟩ after bound
        exact ⟨by simp only at after ⊢; omega, bound⟩
    · intro s inside enough
      simp only [parseblock]
      split
      next found =>
        obtain ⟨advance, within⟩ := peeked_next inside found
        refine (line _ within (by omega)).bind ?_
        rintro ⟨cmd, ps⟩ lower upper
        simp only at lower upper ⊢
        split
        next closes =>
          obtain ⟨advance', within'⟩ := peeked_next upper closes
          refine (advances_parseredirs within' (by omega)).bind ?_
          rintro ⟨redirs, last⟩ after bound
          exact ⟨by simp only at after ⊢; omega, bound⟩
        next => exact nofun
      next => exact nofun

theorem advances_parseline (text : List UInt8) :
    Advances text 0 Prod.snd (parseline text (4 * text.length + 4) 0) :=
  (advances_parse (4 * text.length + 4)).1 0 (Nat.zero_le _) (by omega)

theorem parsecmd_ne_fuel (text : List UInt8) : parsecmd text ≠ .error .fuel := by
  have advances := advances_parseline text
  unfold parsecmd
  cases parsed : parseline text (4 * text.length + 4) 0 with
  | error stop =>
    rw [parsed] at advances
    intro failed
    exact advances (Except.error.inj failed)
  | ok value =>
    obtain ⟨cmd, s⟩ := value
    intro failed
    change (if (peek text s []).1 ≠ text.length then _ else _) = _ at failed
    split at failed <;> cases failed

end

end StraceXv6.User.Shell
