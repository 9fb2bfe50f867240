import StraceXv6.User.Shell.Grammar

namespace StraceXv6.User.Shell

open List Data

/-! The parser accepts its grammar. -/

def Redir.read (text : List UInt8) (redir : Redir) : Redirection (List UInt8) :=
  ⟨slice text redir.file, redir.mode, redir.fd⟩

def Cmd.strings {α : Type} : Cmd α → List α
  | .exec argv => argv
  | .redir cmd file _ _ => cmd.strings ++ [file]
  | .pipe left right => left.strings ++ right.strings
  | .list left right => left.strings ++ right.strings
  | .back cmd => cmd.strings

section

variable {text : List UInt8}

section

variable (fuel argc s : Nat) (cmd : Cmd Span)

theorem parseredirs_succ :
    parseredirs text (fuel + 1) s =
      if peeks (lit "<>") (tokens text s) = true then
        if (gettoken text (gettoken text s).next).ret ≠ 'a'.toUInt8 then
          .error (.panic .missingFile)
        else do
          let (redirs, ps) ← parseredirs text fuel (gettoken text (gettoken text s).next).next
          return (.of (gettoken text s).ret ⟨(gettoken text (gettoken text s).next).q,
            (gettoken text (gettoken text s).next).eq⟩ :: redirs, ps)
      else .ok ([], skip text s) := by
  rw [parseredirs, peek_eq (by decide)]
  dsimp only
  rw [gettoken_skip]

theorem parseargs_succ :
    parseargs text (fuel + 1) argc s =
      if peeks (lit "|)&;") (tokens text s) = true then .ok ([], [], skip text s)
      else if (gettoken text s).ret = 0 then .ok ([], [], (gettoken text s).next)
      else if (gettoken text s).ret ≠ 'a'.toUInt8 then .error (.panic .syntaxError)
      else if argc + 1 ≥ maxargs then .error (.panic .tooManyArgs)
      else do
        let (redirs, ps) ← parseredirs text (text.length + 1) (gettoken text s).next
        let (argv, more, ps) ← parseargs text fuel (argc + 1) ps
        return (⟨(gettoken text s).q, (gettoken text s).eq⟩ :: argv, redirs ++ more, ps) := by
  rw [parseargs, peek_eq (by decide)]
  dsimp only
  rw [gettoken_skip]

theorem parsebacks_succ :
    parsebacks text (fuel + 1) cmd s =
      if peeks (lit "&") (tokens text s) = true then
        parsebacks text fuel (.back cmd) (gettoken text s).next
      else .ok (cmd, skip text s) := by
  rw [parsebacks, peek_eq (by decide)]
  dsimp only
  rw [gettoken_skip]

theorem parseline_succ :
    parseline text (fuel + 1) s = do
      let (cmd, ps) ← parsepipe text fuel s
      let (cmd, ps) ← parsebacks text (text.length + 1) cmd ps
      if peeks (lit ";") (tokens text ps) = true then do
        let (right, ps) ← parseline text fuel (gettoken text ps).next
        return (.list cmd right, ps)
      else return (cmd, skip text ps) := by
  simp only [parseline, peek_eq (by decide : (lit ";").all isSymbol = true), gettoken_skip]

theorem parsepipe_succ :
    parsepipe text (fuel + 1) s = do
      let (cmd, ps) ← parseexec text fuel s
      if peeks (lit "|") (tokens text ps) = true then do
        let (right, ps) ← parsepipe text fuel (gettoken text ps).next
        return (.pipe cmd right, ps)
      else return (cmd, skip text ps) := by
  simp only [parsepipe, peek_eq (by decide : (lit "|").all isSymbol = true), gettoken_skip]

theorem parseexec_succ :
    parseexec text (fuel + 1) s =
      if peeks (lit "(") (tokens text s) = true then parseblock text fuel (skip text s)
      else do
        let (redirs, ps) ← parseredirs text (text.length + 1) (skip text s)
        let (argv, more, ps) ← parseargs text (text.length + 1) 0 ps
        return ((Cmd.exec argv).wrap (redirs ++ more), ps) := by
  rw [parseexec, peek_eq (by decide)]

theorem parseblock_succ :
    parseblock text (fuel + 1) s =
      if peeks (lit "(") (tokens text s) = true then do
        let (cmd, ps) ← parseline text fuel (gettoken text s).next
        if peeks (lit ")") (tokens text ps) = true then do
          let (redirs, ps) ← parseredirs text (text.length + 1) (gettoken text ps).next
          return (cmd.wrap redirs, ps)
        else .error (.panic .missingParen)
      else .error (.panic .parseblock) := by
  simp only [parseblock, peek_eq (by decide : (lit "(").all isSymbol = true),
    peek_eq (by decide : (lit ")").all isSymbol = true), gettoken_skip]

end

variable {α β : Type} {symbol : Symbol} {fuel s s' n s₁ s₂ : Nat} {redirs : List Redir}
  {toks file : List UInt8} {cmd right : Cmd Span} {allowed : List Symbol}
  {rest ts : List (Tok (List UInt8))} {redir : Redirection (List UInt8)} {words : List (List UInt8)}
  {span : Span}

theorem error_ne_ok {stop : Stop} {value : α} :
    (Except.error stop : Except Stop α) ≠ .ok value := fun equal => by cases equal

theorem exists_ok_of_bind {first : Except Stop α} {next : α → Except Stop β} {value : β}
    (done : (first >>= next) = .ok value) :
    ∃ middle, first = .ok middle ∧ next middle = .ok value := by
  cases first with
  | error stop => exact absurd done error_ne_ok
  | ok middle => exact ⟨middle, rfl, done⟩

theorem Cmd.map_wrap (cmd : Cmd Span) (redirs : List Redir) :
    (cmd.wrap redirs).map (slice text) =
      (cmd.map (slice text)).redirect (redirs.map (Redir.read text)) := by
  induction redirs generalizing cmd with
  | nil => rfl
  | cons redir rest induction => exact induction (.redir cmd redir.file redir.mode redir.fd)

theorem Cmd.strings_wrap (cmd : Cmd Span) (redirs : List Redir) :
    (cmd.wrap redirs).strings = cmd.strings ++ redirs.map Redir.file := by
  induction redirs generalizing cmd with
  | nil => exact (append_nil _).symm
  | cons redir rest induction =>
    have after := induction (.redir cmd redir.file redir.mode redir.fd)
    rw [Cmd.strings, append_assoc] at after
    exact after

theorem Cmd.map_backs (f : α → β) (cmd : Cmd α) (n : Nat) :
    (cmd.backs n).map f = (cmd.map f).backs n := by
  induction n generalizing cmd with
  | zero => rfl
  | succ n induction => exact induction cmd.back

theorem Cmd.strings_backs (cmd : Cmd α) (n : Nat) : (cmd.backs n).strings = cmd.strings := by
  induction n generalizing cmd with
  | zero => rfl
  | succ n induction => exact induction cmd.back

theorem redirection_of (redirects : (lit "<>").contains symbol.first = true) {ret : UInt8}
    (isRet : ret = symbol.ret) (file : Span) :
    symbol.redirection (slice text file) = some ((Redir.of ret file).read text) := by
  subst isRet
  cases symbol with
  | less | greater | append => rfl
  | bar | lparen | rparen | semi | amp => cases redirects

theorem file_of (ret : UInt8) (file : Span) : (Redir.of ret file).file = file := by
  unfold Redir.of
  split
  next => rfl
  next => rfl

theorem parseredirs_sound (parsed : parseredirs text fuel s = .ok (redirs, s')) :
    ∃ ts, tokens text s = ts ++ tokens text s' ∧ IsRedirs ts (redirs.map (Redir.read text)) ∧
      ∀ span ∈ redirs.map Redir.file, IsSpan text span := by
  induction fuel generalizing s redirs with
  | zero => exact absurd parsed error_ne_ok
  | succ fuel induction =>
    rw [parseredirs_succ] at parsed
    split at parsed
    next found =>
      obtain ⟨symbol, redirects, ret, cons⟩ := exists_symbol found
      split at parsed
      next => exact absurd parsed error_ne_ok
      next isWord =>
        obtain ⟨⟨more, s₁⟩, rest, done⟩ := exists_ok_of_bind parsed
        obtain ⟨rfl, rfl⟩ := Prod.mk.inj (Except.ok.inj done)
        obtain ⟨ts, consumed, derived, spans⟩ := induction rest
        cases sees text (gettoken text s).next with
        | nothing ends =>
          rw [ret_eq_zero_iff.mpr ends] at isWord
          exact absurd isWord (by decide)
        | symbol other first other_ret tokens_eq =>
          rw [other_ret] at isWord
          exact absurd isWord (by cases other <;> decide)
        | word nonzero plain word_ret span tokens_eq =>
          refine ⟨_, ?_, .cons (redirection_of redirects ret _) derived, ?_⟩
          · rw [cons, tokens_eq, consumed]
            rfl
          · intro other member
            rcases mem_cons.mp member with rfl | later
            · rw [file_of]
              exact span
            · exact spans other later
    next =>
      obtain ⟨rfl, rfl⟩ := Prod.mk.inj (Except.ok.inj parsed)
      refine ⟨[], ?_, .nil, ?_⟩
      · rw [tokens_skip]
        rfl
      · intro span member
        exact absurd member not_mem_nil

theorem parseargs_sound {argc : Nat} {argv : List Span}
    (parsed : parseargs text fuel argc s = .ok (argv, redirs, s')) (few : argc < maxargs) :
    ∃ ts, tokens text s = ts ++ tokens text s' ∧
      IsItems ts (argv.map (slice text)) (redirs.map (Redir.read text)) ∧
      argc + argv.length < maxargs ∧ ∀ span ∈ argv ++ redirs.map Redir.file, IsSpan text span := by
  induction fuel generalizing argc s argv redirs with
  | zero => exact absurd parsed error_ne_ok
  | succ fuel induction =>
    have nothing : ∀ {ps}, tokens text ps = tokens text s →
        (.ok ([], [], ps) : Except Stop (List Span × List Redir × Nat)) = .ok (argv, redirs, s') →
        ∃ ts, tokens text s = ts ++ tokens text s' ∧
          IsItems ts (argv.map (slice text)) (redirs.map (Redir.read text)) ∧
          argc + argv.length < maxargs ∧
          ∀ span ∈ argv ++ redirs.map Redir.file, IsSpan text span := by
      intro ps same done
      obtain ⟨rfl, both⟩ := Prod.mk.inj (Except.ok.inj done)
      obtain ⟨rfl, rfl⟩ := Prod.mk.inj both
      exact ⟨[], same.symm, .nil, few, fun span member => absurd member not_mem_nil⟩
    rw [parseargs_succ] at parsed
    split at parsed
    next => exact nothing (tokens_skip text s) parsed
    next =>
      split at parsed
      next ends =>
        have none := tokens_nil (ret_eq_zero_iff.mp ends)
        exact nothing ((nil_next none).2.trans none.symm) parsed
      next =>
        split at parsed
        next => exact absurd parsed error_ne_ok
        next isWord =>
          split at parsed
          next => exact absurd parsed error_ne_ok
          next fewer =>
            obtain ⟨⟨before, s₁⟩, first, parsed⟩ := exists_ok_of_bind parsed
            obtain ⟨⟨argv', after, s₂⟩, second, done⟩ := exists_ok_of_bind parsed
            obtain ⟨rfl, both⟩ := Prod.mk.inj (Except.ok.inj done)
            obtain ⟨rfl, rfl⟩ := Prod.mk.inj both
            obtain ⟨ts, consumed, derived, spans⟩ := parseredirs_sound first
            obtain ⟨us, consumed', derived', count, spans'⟩ :=
              induction second (Nat.lt_of_not_le fewer)
            cases sees text s with
            | nothing ends =>
              rw [ret_eq_zero_iff.mpr ends] at isWord
              exact absurd isWord (by decide)
            | symbol other first other_ret tokens_eq =>
              rw [other_ret] at isWord
              exact absurd isWord (by cases other <;> decide)
            | word nonzero plain word_ret span tokens_eq =>
              have items := derived.items derived'
              rw [← map_append] at items
              refine ⟨_, ?_, .word items, ?_, ?_⟩
              · rw [tokens_eq, consumed, consumed', cons_append, append_assoc]
              · rw [length_cons]
                omega
              · intro other member
                rw [map_append, cons_append, mem_cons,
                  mem_append, mem_append] at member
                rcases member with rfl | word | early | late
                · exact span
                · exact spans' other (mem_append_left _ word)
                · exact spans other early
                · exact spans' other (mem_append_right _ late)

theorem exists_of_single (symbol : Symbol)
    (single : ∀ other ∈ Symbol.all, toks.contains other.first = true → other = symbol)
    (found : peeks toks (tokens text s) = true) :
    tokens text s = .symbol symbol :: tokens text (gettoken text s).next := by
  obtain ⟨other, contained, _, cons⟩ := exists_symbol found
  rw [cons, single other other.mem_all contained]

theorem parsebacks_sound {cmd' : Cmd Span} (parsed : parsebacks text fuel cmd s = .ok (cmd', s')) :
    ∃ n, tokens text s = List.replicate n (.symbol .amp) ++ tokens text s' ∧
      cmd' = cmd.backs n := by
  induction fuel generalizing s cmd with
  | zero => exact absurd parsed error_ne_ok
  | succ fuel induction =>
    rw [parsebacks_succ] at parsed
    split at parsed
    next found =>
      have cons := exists_of_single .amp (by decide) found
      obtain ⟨n, consumed, rfl⟩ := induction parsed
      refine ⟨n + 1, ?_, rfl⟩
      rw [cons, consumed]
      rfl
    next =>
      obtain ⟨rfl, rfl⟩ := Prod.mk.inj (Except.ok.inj parsed)
      refine ⟨0, ?_, rfl⟩
      rw [tokens_skip]
      rfl

/-- The command is derived from the tokens between the positions. -/
def Derived (rule : List (Tok (List UInt8)) → Cmd (List UInt8) → Prop) (text : List UInt8)
    (s : Nat) (cmd : Cmd Span) (s' : Nat) : Prop :=
  ∃ ts, tokens text s = ts ++ tokens text s' ∧ rule ts (cmd.map (slice text)) ∧
    ∀ span ∈ cmd.strings, IsSpan text span

theorem Derived.list (left : Derived IsPipe text s cmd s₁)
    (backs : tokens text s₁ = List.replicate n (.symbol .amp) ++ tokens text s₂)
    (semi : tokens text s₂ = .symbol .semi :: tokens text (gettoken text s₂).next)
    (line : Derived IsLine text (gettoken text s₂).next right s') :
    Derived IsLine text s (.list (cmd.backs n) right) s' := by
  obtain ⟨ts, consumed, derived, spans⟩ := left
  obtain ⟨us, consumed', derived', spans'⟩ := line
  refine ⟨ts ++ List.replicate n (.symbol .amp) ++ .symbol .semi :: us, ?_, ?_, ?_⟩
  · rw [consumed, backs, semi, consumed']
    simp only [append_assoc, cons_append]
  · rw [Cmd.map, Cmd.map_backs]
    exact .list n derived derived'
  · intro span member
    rw [Cmd.strings, Cmd.strings_backs, mem_append] at member
    exact member.elim (spans span) (spans' span)

theorem Derived.last (left : Derived IsPipe text s cmd s₁)
    (backs : tokens text s₁ = List.replicate n (.symbol .amp) ++ tokens text s₂) :
    Derived IsLine text s (cmd.backs n) (skip text s₂) := by
  obtain ⟨ts, consumed, derived, spans⟩ := left
  refine ⟨ts ++ List.replicate n (.symbol .amp), ?_, ?_, ?_⟩
  · rw [consumed, backs, tokens_skip, append_assoc]
  · rw [Cmd.map_backs]
    exact .last n derived
  · rw [Cmd.strings_backs]
    exact spans

theorem Derived.pipe (left : Derived IsExec text s cmd s₁)
    (bar : tokens text s₁ = .symbol .bar :: tokens text (gettoken text s₁).next)
    (rest : Derived IsPipe text (gettoken text s₁).next right s') :
    Derived IsPipe text s (.pipe cmd right) s' := by
  obtain ⟨ts, consumed, derived, spans⟩ := left
  obtain ⟨us, consumed', derived', spans'⟩ := rest
  refine ⟨ts ++ .symbol .bar :: us, ?_, .pipe derived derived', ?_⟩
  · rw [consumed, bar, consumed', append_assoc, cons_append]
  · intro span member
    rw [Cmd.strings, mem_append] at member
    exact member.elim (spans span) (spans' span)

theorem Derived.block
    (opens : tokens text s = .symbol .lparen :: tokens text (gettoken text s).next)
    (line : Derived IsLine text (gettoken text s).next cmd s₁)
    (closes : tokens text s₁ = .symbol .rparen :: tokens text (gettoken text s₁).next)
    (rest : ∃ us, tokens text (gettoken text s₁).next = us ++ tokens text s' ∧
      IsRedirs us (redirs.map (Redir.read text)) ∧
      ∀ span ∈ redirs.map Redir.file, IsSpan text span) :
    Derived IsExec text s (cmd.wrap redirs) s' := by
  obtain ⟨ts, consumed, derived, spans⟩ := line
  obtain ⟨us, consumed', derived', spans'⟩ := rest
  refine ⟨.symbol .lparen :: ts ++ .symbol .rparen :: us, ?_, ?_, ?_⟩
  · rw [opens, consumed, closes, consumed']
    simp only [append_assoc, cons_append]
  · rw [Cmd.map_wrap]
    exact .block derived derived'
  · intro span member
    rw [Cmd.strings_wrap, mem_append] at member
    exact member.elim (spans span) (spans' span)

theorem parse_sound (fuel : Nat) :
    (∀ {s cmd s'}, parseline text fuel s = .ok (cmd, s') → Derived IsLine text s cmd s') ∧
    (∀ {s cmd s'}, parsepipe text fuel s = .ok (cmd, s') → Derived IsPipe text s cmd s') ∧
    (∀ {s cmd s'}, parseexec text fuel s = .ok (cmd, s') → Derived IsExec text s cmd s') ∧
    ∀ {s cmd s'}, parseblock text fuel s = .ok (cmd, s') → Derived IsExec text s cmd s' := by
  induction fuel with
  | zero =>
    simp only [parseline, parsepipe, parseexec, parseblock]
    exact ⟨fun parsed => absurd parsed error_ne_ok, fun parsed => absurd parsed error_ne_ok,
      fun parsed => absurd parsed error_ne_ok, fun parsed => absurd parsed error_ne_ok⟩
  | succ fuel induction =>
    obtain ⟨line, pipe, exec, block⟩ := induction
    refine ⟨?_, ?_, ?_, ?_⟩
    · intro s cmd s' parsed
      rw [parseline_succ] at parsed
      obtain ⟨⟨first, s₁⟩, piped, parsed⟩ := exists_ok_of_bind parsed
      obtain ⟨⟨second, s₂⟩, backed, parsed⟩ := exists_ok_of_bind parsed
      obtain ⟨n, backs, rfl⟩ := parsebacks_sound backed
      dsimp only at parsed
      split at parsed
      next found =>
        obtain ⟨⟨right, s₃⟩, rest, done⟩ := exists_ok_of_bind parsed
        obtain ⟨rfl, rfl⟩ := Prod.mk.inj (Except.ok.inj done)
        exact (pipe piped).list backs (exists_of_single .semi (by decide) found) (line rest)
      next =>
        obtain ⟨rfl, rfl⟩ := Prod.mk.inj (Except.ok.inj parsed)
        exact (pipe piped).last backs
    · intro s cmd s' parsed
      rw [parsepipe_succ] at parsed
      obtain ⟨⟨first, s₁⟩, executed, parsed⟩ := exists_ok_of_bind parsed
      dsimp only at parsed
      split at parsed
      next found =>
        obtain ⟨⟨right, s₃⟩, rest, done⟩ := exists_ok_of_bind parsed
        obtain ⟨rfl, rfl⟩ := Prod.mk.inj (Except.ok.inj done)
        exact (exec executed).pipe (exists_of_single .bar (by decide) found) (pipe rest)
      next =>
        obtain ⟨rfl, rfl⟩ := Prod.mk.inj (Except.ok.inj parsed)
        obtain ⟨ts, consumed, derived, spans⟩ := exec executed
        exact ⟨ts, by rw [consumed, tokens_skip], .last derived, spans⟩
    · intro s cmd s' parsed
      rw [parseexec_succ] at parsed
      split at parsed
      next =>
        obtain ⟨ts, consumed, derived⟩ := block parsed
        exact ⟨ts, by rw [← tokens_skip, consumed], derived⟩
      next =>
        obtain ⟨⟨before, s₁⟩, first, parsed⟩ := exists_ok_of_bind parsed
        obtain ⟨⟨argv, after, s₂⟩, second, done⟩ := exists_ok_of_bind parsed
        obtain ⟨rfl, rfl⟩ := Prod.mk.inj (Except.ok.inj done)
        obtain ⟨ts, consumed, derived, spans⟩ := parseredirs_sound first
        obtain ⟨us, consumed', derived', count, spans'⟩ :=
          parseargs_sound second (by decide)
        rw [Nat.zero_add] at count
        have items := derived.items derived'
        rw [← map_append] at items
        refine ⟨ts ++ us, ?_, ?_, ?_⟩
        · rw [← tokens_skip, consumed, consumed', append_assoc]
        · rw [Cmd.map_wrap]
          exact .simple items (by rw [length_map]; exact count)
        · intro span member
          rw [Cmd.strings_wrap, map_append, mem_append, mem_append] at member
          rcases member with word | early | late
          · exact spans' span (mem_append_left _ word)
          · exact spans span early
          · exact spans' span (mem_append_right _ late)
    · intro s cmd s' parsed
      rw [parseblock_succ] at parsed
      split at parsed
      next opens =>
        obtain ⟨⟨inner, s₁⟩, first, parsed⟩ := exists_ok_of_bind parsed
        dsimp only at parsed
        split at parsed
        next closes =>
          obtain ⟨⟨redirs, s₂⟩, second, done⟩ := exists_ok_of_bind parsed
          obtain ⟨rfl, rfl⟩ := Prod.mk.inj (Except.ok.inj done)
          exact .block (exists_of_single .lparen (by decide) opens) (line first)
            (exists_of_single .rparen (by decide) closes) (parseredirs_sound second)
        next => exact absurd parsed error_ne_ok
      next => exact absurd parsed error_ne_ok

def Follows (allowed : List Symbol) (rest : List (Tok (List UInt8))) : Prop :=
  ∀ tok, rest.head? = some tok → ∃ symbol ∈ allowed, tok = .symbol symbol

theorem Follows.cons (member : symbol ∈ allowed) (rest : List (Tok (List UInt8))) :
    Follows allowed (.symbol symbol :: rest) :=
  fun _ head => ⟨symbol, member, (Option.some.inj head).symm⟩

theorem Follows.mono {fewer more : List Symbol} (subset : fewer ⊆ more)
    (follows : Follows fewer rest) : Follows more rest := by
  intro tok head
  obtain ⟨symbol, member, same⟩ := follows tok head
  exact ⟨symbol, subset member, same⟩

theorem Follows.peeks_eq_false (follows : Follows allowed rest)
    (others : ∀ symbol ∈ allowed, toks.contains symbol.first = false) :
    peeks toks rest = false := by
  cases rest with
  | nil => rfl
  | cons tok rest =>
    obtain ⟨symbol, member, rfl⟩ := follows tok rfl
    exact others symbol member

def stops : List Symbol := [.bar, .rparen, .amp, .semi]

theorem redirects_of (kind : symbol.redirection file = some redir) :
    (lit "<>").contains symbol.first = true := by
  cases symbol with
  | less | greater | append => decide
  | bar | lparen | rparen | semi | amp => cases kind

theorem parseredirs_cons (fuel : Nat)
    (here : tokens text s = .symbol symbol :: .word file :: rest)
    (kind : symbol.redirection file = some redir) :
    ∃ s₁ first, s < s₁ ∧ tokens text s₁ = rest ∧ Redir.read text first = redir ∧
      parseredirs text (fuel + 1) s = do
        let (redirs, ps) ← parseredirs text fuel s₁
        return (first :: redirs, ps) := by
  have redirects := redirects_of kind
  obtain ⟨ret, after, advance⟩ := symbol_next here
  obtain ⟨isWord, slice_eq, left, advance'⟩ := word_next after
  have found : peeks (lit "<>") (tokens text s) = true := by
    rw [here]
    exact redirects
  let span : Span := ⟨(gettoken text (gettoken text s).next).q,
    (gettoken text (gettoken text s).next).eq⟩
  have same : symbol.redirection (slice text span) = _ := redirection_of redirects ret span
  refine ⟨(gettoken text (gettoken text s).next).next, .of (gettoken text s).ret span,
    advance.trans advance', left, ?_, ?_⟩
  · rw [slice_eq, kind] at same
    exact (Option.some.inj same).symm
  · rw [parseredirs_succ, if_pos found, if_neg (not_not.mpr isWord)]

theorem parseredirs_nil (fuel : Nat) (ends : peeks (lit "<>") (tokens text s) = false) :
    parseredirs text (fuel + 1) s = .ok ([], skip text s) := by
  rw [parseredirs_succ, if_neg (by rw [ends]; exact Bool.false_ne_true)]

theorem parseredirs_complete {redirs : List (Redirection (List UInt8))}
    (derived : IsRedirs ts redirs) (ends : peeks (lit "<>") rest = false) (fuel : Nat)
    (here : tokens text s = ts ++ rest) (enough : text.length - s < fuel) :
    ∃ found s', parseredirs text fuel s = .ok (found, s') ∧
      found.map (Redir.read text) = redirs ∧ tokens text s' = rest ∧ s ≤ s' := by
  induction derived generalizing fuel s with
  | nil =>
    cases fuel with
    | zero => exact absurd enough (Nat.not_lt_zero _)
    | succ fuel =>
      refine ⟨[], skip text s, parseredirs_nil fuel ?_, rfl, ?_, le_skip text s⟩
      · rw [here]
        exact ends
      · rw [tokens_skip, here, nil_append]
  | cons kind _ induction =>
    cases fuel with
    | zero => exact absurd enough (Nat.not_lt_zero _)
    | succ fuel =>
      have start := lt_length_of_tokens here
      obtain ⟨s₁, first, advance, left, read, step⟩ := parseredirs_cons fuel here kind
      obtain ⟨found, s', parsed, reads, finish, order⟩ := induction fuel left (by omega)
      refine ⟨first :: found, s', ?_, ?_, finish, by omega⟩
      · rw [step, parsed]
        rfl
      · rw [map_cons, read, reads]

theorem Follows.parseargs_nil (follows : Follows stops rest) (fuel argc : Nat)
    (here : tokens text s = rest) :
    ∃ s', parseargs text (fuel + 1) argc s = .ok ([], [], s') ∧ tokens text s' = rest ∧
      s ≤ s' := by
  cases rest with
  | nil =>
    obtain ⟨ret, left⟩ := nil_next here
    refine ⟨(gettoken text s).next, ?_, left, ?_⟩
    · rw [parseargs_succ, here, if_neg (by exact Bool.false_ne_true), if_pos ret]
    · exact le_gettoken_next text s
  | cons tok rest =>
    obtain ⟨symbol, member, rfl⟩ := follows tok rfl
    have found : peeks (lit "|)&;") (tokens text s) = true := by
      rw [here]
      exact forall_iff_forall_mem.mp (by decide :
        stops.Forall fun symbol => (lit "|)&;").contains symbol.first = true) symbol member
    refine ⟨skip text s, ?_, ?_, le_skip text s⟩
    · rw [parseargs_succ, if_pos found]
    · rw [tokens_skip, here]

theorem parseargs_complete {redirs : List (Redirection (List UInt8))}
    (derived : IsItems ts words redirs) (follows : Follows stops rest) (fuel fuel' argc : Nat)
    (here : tokens text s = ts ++ rest) (few : argc + words.length < maxargs)
    (enough : text.length - s < fuel) (enough' : text.length - s < fuel') :
    ∃ before s₁ argv after s', parseredirs text fuel s = .ok (before, s₁) ∧
      parseargs text fuel' argc s₁ = .ok (argv, after, s') ∧ argv.map (slice text) = words ∧
      (before ++ after).map (Redir.read text) = redirs ∧ tokens text s' = rest ∧ s ≤ s' := by
  induction derived generalizing fuel fuel' argc s with
  | nil =>
    obtain ⟨fuel, rfl⟩ := Nat.exists_eq_succ_of_ne_zero (Nat.ne_zero_of_lt enough)
    obtain ⟨fuel', rfl⟩ := Nat.exists_eq_succ_of_ne_zero (Nat.ne_zero_of_lt enough')
    rw [nil_append] at here
    have none : peeks (lit "<>") (tokens text s) = false := by
      rw [here]
      exact follows.peeks_eq_false (by decide)
    obtain ⟨s', parsed, left, order⟩ :=
      follows.parseargs_nil fuel' argc ((tokens_skip text s).trans here)
    exact ⟨[], _, [], [], s', parseredirs_nil fuel none, parsed, rfl, rfl, left,
      (le_skip text s).trans order⟩
  | @word word ts words redirs items induction =>
    obtain ⟨fuel, rfl⟩ := Nat.exists_eq_succ_of_ne_zero (Nat.ne_zero_of_lt enough)
    obtain ⟨fuel', rfl⟩ := Nat.exists_eq_succ_of_ne_zero (Nat.ne_zero_of_lt enough')
    have start := lt_length_of_tokens here
    obtain ⟨isWord, slice_eq, left, advance⟩ := word_next here
    rw [length_cons] at few
    obtain ⟨before, s₁, argv, after, s', first, second, words_eq, redirs_eq, finish, order⟩ :=
      induction (text.length + 1) fuel' (argc + 1) left (by omega) (by omega) (by omega)
    have plain : ∀ toks, peeks toks (tokens text s) = false := by
      intro toks
      rw [here]
      rfl
    refine ⟨[], _, ⟨(gettoken text s).q, (gettoken text s).eq⟩ :: argv, before ++ after, s',
      parseredirs_nil fuel (plain _), ?_, ?_, redirs_eq, finish, by omega⟩
    · rw [parseargs_succ, tokens_skip, gettoken_skip,
        if_neg (by rw [plain]; exact Bool.false_ne_true),
        if_neg (by rw [isWord]; decide), if_neg (not_not.mpr isWord), if_neg (by omega), first]
      change (parseargs text fuel' (argc + 1) s₁ >>= _) = _
      rw [second]
      rfl
    · rw [map_cons, slice_eq, words_eq]
  | redir kind _ induction =>
    obtain ⟨fuel, rfl⟩ := Nat.exists_eq_succ_of_ne_zero (Nat.ne_zero_of_lt enough)
    have start := lt_length_of_tokens here
    obtain ⟨s₁, one, advance, left, read, step⟩ := parseredirs_cons fuel here kind
    obtain ⟨before, s₂, argv, after, s', first, second, words_eq, redirs_eq, finish, order⟩ :=
      induction fuel fuel' argc left few (by omega) (by omega)
    refine ⟨one :: before, s₂, argv, after, s', ?_, second, words_eq, ?_, finish, by omega⟩
    · rw [step, first]
      rfl
    · rw [cons_append, map_cons, read, redirs_eq]

theorem parsebacks_complete (fuel : Nat) (cmd : Cmd Span)
    (here : tokens text s = List.replicate n (.symbol .amp) ++ rest)
    (ends : peeks (lit "&") rest = false) (enough : text.length - s < fuel) :
    ∃ s', parsebacks text fuel cmd s = .ok (cmd.backs n, s') ∧ tokens text s' = rest ∧
      s ≤ s' := by
  induction n generalizing fuel s cmd with
  | zero =>
    obtain ⟨fuel, rfl⟩ := Nat.exists_eq_succ_of_ne_zero (Nat.ne_zero_of_lt enough)
    have here' : tokens text s = rest := here
    refine ⟨skip text s, ?_, ?_, le_skip text s⟩
    · rw [parsebacks_succ, here', if_neg (by rw [ends]; exact Bool.false_ne_true)]
      rfl
    · rw [tokens_skip, here']
  | succ n induction =>
    obtain ⟨fuel, rfl⟩ := Nat.exists_eq_succ_of_ne_zero (Nat.ne_zero_of_lt enough)
    have here' : tokens text s = .symbol .amp :: (List.replicate n (.symbol .amp) ++ rest) := here
    have start := lt_length_of_tokens here'
    obtain ⟨ret, left, advance⟩ := symbol_next here'
    obtain ⟨s', parsed, finish, order⟩ := induction fuel cmd.back left (by omega)
    refine ⟨s', ?_, finish, by omega⟩
    rw [parsebacks_succ, here', if_pos (by rfl)]
    exact parsed

/-- The result is the command, and these tokens are left. -/
def Parsed (text : List UInt8) (s : Nat) (cmd : Cmd (List UInt8))
    (rest : List (Tok (List UInt8))) (result : Except Stop (Cmd Span × Nat)) : Prop :=
  ∃ found s', result = .ok (found, s') ∧ found.map (slice text) = cmd ∧ tokens text s' = rest ∧
    s ≤ s'

theorem IsItems.peeks_eq_false {redirs : List (Redirection (List UInt8))}
    (items : IsItems ts words redirs) (follows : Follows stops rest) :
    peeks (lit "(") (ts ++ rest) = false := by
  cases items with
  | nil => exact follows.peeks_eq_false (by decide)
  | word => rfl
  | @redir symbol _ _ _ _ _ kind =>
    cases symbol with
    | lparen => cases kind
    | bar | rparen | semi | amp | less | greater | append => rfl

theorem parse_complete (fuel : Nat) :
    (∀ {s ts cmd rest}, IsLine ts cmd → tokens text s = ts ++ rest → Follows [.rparen] rest →
      4 * (text.length - s) + 4 ≤ fuel → Parsed text s cmd rest (parseline text fuel s)) ∧
    (∀ {s ts cmd rest}, IsPipe ts cmd → tokens text s = ts ++ rest →
      Follows [.rparen, .amp, .semi] rest →
      4 * (text.length - s) + 3 ≤ fuel → Parsed text s cmd rest (parsepipe text fuel s)) ∧
    (∀ {s ts cmd rest}, IsExec ts cmd → tokens text s = ts ++ rest → Follows stops rest →
      4 * (text.length - s) + 2 ≤ fuel → Parsed text s cmd rest (parseexec text fuel s)) ∧
    ∀ {s ts cmd us redirs rest}, IsLine ts cmd → IsRedirs us redirs →
      tokens text s = .symbol .lparen :: (ts ++ .symbol .rparen :: (us ++ rest)) →
      Follows stops rest → 4 * (text.length - s) + 1 ≤ fuel →
      Parsed text s (cmd.redirect redirs) rest (parseblock text fuel s) := by
  induction fuel with
  | zero =>
    refine ⟨?_, ?_, ?_, ?_⟩
    · intro s ts cmd rest _ _ _ enough
      omega
    · intro s ts cmd rest _ _ _ enough
      omega
    · intro s ts cmd rest _ _ _ enough
      omega
    · intro s ts cmd us redirs rest _ _ _ _ enough
      omega
  | succ fuel induction =>
    obtain ⟨line, pipe, exec, block⟩ := induction
    refine ⟨?_, ?_, ?_, ?_⟩
    · intro s ts cmd rest derived here follows enough
      cases derived with
      | @last ts cmd n piped =>
        rw [append_assoc] at here
        have after : Follows [.rparen, .amp, .semi]
            (List.replicate n (.symbol .amp) ++ rest) := by
          cases n with
          | zero => exact follows.mono (by decide)
          | succ n => exact .cons (by decide) _
        obtain ⟨found, s₁, parsed, same, left, order⟩ := pipe piped here after (by omega)
        obtain ⟨s₂, backed, left', order'⟩ := parsebacks_complete (text.length + 1) found
          left (follows.peeks_eq_false (by decide)) (by omega)
        refine ⟨found.backs n, skip text s₂, ?_, ?_, ?_, ?_⟩
        · rw [parseline_succ, parsed]
          change (parsebacks text (text.length + 1) found s₁ >>= _) = _
          rw [backed]
          change (if peeks (lit ";") (tokens text s₂) = true then _ else _) = _
          rw [left', if_neg (by rw [follows.peeks_eq_false (by decide)]; decide)]
          rfl
        · rw [Cmd.map_backs, same]
        · rw [tokens_skip, left']
        · exact (order.trans order').trans (le_skip text s₂)
      | @list ts cmd us right n piped lined =>
        rw [append_assoc, append_assoc, cons_append] at here
        have after : Follows [.rparen, .amp, .semi]
            (List.replicate n (.symbol .amp) ++ (.symbol .semi :: (us ++ rest))) := by
          cases n with
          | zero | succ n => exact .cons (by decide) _
        obtain ⟨found, s₁, parsed, same, left, order⟩ := pipe piped here after (by omega)
        obtain ⟨s₂, backed, left', order'⟩ := parsebacks_complete (text.length + 1) found
          left (by rfl) (by omega)
        have start := lt_length_of_tokens left'
        obtain ⟨ret, left'', advance⟩ := symbol_next left'
        obtain ⟨second, s₃, parsed', same', finish, order''⟩ :=
          line lined left'' follows (by omega)
        refine ⟨.list (found.backs n) second, s₃, ?_, ?_, finish, by omega⟩
        · rw [parseline_succ, parsed]
          change (parsebacks text (text.length + 1) found s₁ >>= _) = _
          rw [backed]
          change (if peeks (lit ";") (tokens text s₂) = true then _ else _) = _
          rw [left', if_pos (by rfl), parsed']
          rfl
        · rw [Cmd.map, Cmd.map_backs, same, same']
    · intro s ts cmd rest derived here follows enough
      cases derived with
      | last executed =>
        obtain ⟨found, s₁, parsed, same, left, order⟩ :=
          exec executed here (follows.mono (by decide)) (by omega)
        refine ⟨found, skip text s₁, ?_, same, ?_, order.trans (le_skip text s₁)⟩
        · rw [parsepipe_succ, parsed]
          change (if peeks (lit "|") (tokens text s₁) = true then _ else _) = _
          rw [left, if_neg (by rw [follows.peeks_eq_false (by decide)]; decide)]
          rfl
        · rw [tokens_skip, left]
      | pipe executed piped =>
        rw [append_assoc, cons_append] at here
        obtain ⟨found, s₁, parsed, same, left, order⟩ :=
          exec executed here (.cons (by decide) _) (by omega)
        have start := lt_length_of_tokens left
        obtain ⟨ret, left', advance⟩ := symbol_next left
        obtain ⟨second, s₂, parsed', same', finish, order'⟩ :=
          pipe piped left' follows (by omega)
        refine ⟨.pipe found second, s₂, ?_, ?_, finish, by omega⟩
        · rw [parsepipe_succ, parsed]
          change (if peeks (lit "|") (tokens text s₁) = true then _ else _) = _
          rw [left, if_pos (by rfl), parsed']
          rfl
        · rw [Cmd.map, same, same']
    · intro s ts cmd rest derived here follows enough
      have skipped := le_skip text s
      cases derived with
      | block lined redirected =>
        rw [append_assoc, cons_append, cons_append] at here
        obtain ⟨found, s₁, parsed, same, left, order⟩ := block lined redirected
          ((tokens_skip text s).trans here) follows (by omega)
        refine ⟨found, s₁, ?_, same, left, skipped.trans order⟩
        rw [parseexec_succ, here, if_pos (by rfl), parsed]
      | simple items few =>
        obtain ⟨before, s₁, argv, after, s', first, second, words_eq, redirs_eq, finish, order⟩ :=
          parseargs_complete items follows (text.length + 1) (text.length + 1) 0
            ((tokens_skip text s).trans here) (by omega) (by omega) (by omega)
        refine ⟨(Cmd.exec argv).wrap (before ++ after), s', ?_, ?_, finish,
          skipped.trans order⟩
        · rw [parseexec_succ, here,
            if_neg (by rw [items.peeks_eq_false follows]; decide), first]
          change (parseargs text (text.length + 1) 0 s₁ >>= _) = _
          rw [second]
          rfl
        · rw [Cmd.map_wrap, redirs_eq, Cmd.map, words_eq]
    · intro s ts cmd us redirs rest lined redirected here follows enough
      have start := lt_length_of_tokens here
      obtain ⟨ret, left, advance⟩ := symbol_next here
      obtain ⟨found, s₁, parsed, same, left', order⟩ :=
        line lined left (.cons (by decide) _) (by omega)
      obtain ⟨ret', left'', advance'⟩ := symbol_next left'
      obtain ⟨more, s₂, parsed', reads, finish, order'⟩ :=
        parseredirs_complete redirected (follows.peeks_eq_false (by decide)) (text.length + 1)
          left'' (by omega)
      refine ⟨found.wrap more, s₂, ?_, ?_, finish, by omega⟩
      · rw [parseblock_succ, here, if_pos (by rfl), parsed]
        change (if peeks (lit ")") (tokens text s₁) = true then _ else _) = _
        rw [left', if_pos (by rfl), parsed']
        rfl
      · rw [Cmd.map_wrap, same, reads]

theorem Cmd.ends_eq (cmd : Cmd Span) : cmd.ends = cmd.strings.map Span.eq := by
  induction cmd with
  | exec argv => rfl
  | redir cmd file mode fd induction =>
    rw [Cmd.ends, Cmd.strings, induction, map_append]
    rfl
  | pipe left right induction induction' | list left right induction induction' =>
    rw [Cmd.ends, Cmd.strings, induction, induction', map_append]
  | back cmd induction => exact induction

theorem getElem?_foldl_set (ends : List Nat) (buffer : List UInt8) (i : Nat) :
    (ends.foldl (fun buffer eq => buffer.set eq 0) buffer)[i]? =
      if i ∈ ends ∧ i < buffer.length then some 0 else buffer[i]? := by
  induction ends generalizing buffer with
  | nil => simp
  | cons eq rest induction =>
    rw [foldl_cons, induction, length_set, List.getElem?_set]
    grind

theorem IsSpan.not_mem_ends (spans : ∀ span ∈ cmd.strings, IsSpan text span)
    (isSpan : IsSpan text span) {i : Nat} (start : span.q ≤ i) (before : i < span.eq) :
    i ∉ cmd.ends := by
  rw [Cmd.ends_eq, mem_map]
  rintro ⟨other, listed, rfl⟩
  have stop := (spans other listed).ends (before.trans_le isSpan.inside)
  rw [isSpan.plain start before] at stop
  cases stop

theorem cstr_nulterminate (line : (0 : UInt8) ∉ text)
    (spans : ∀ span ∈ cmd.strings, IsSpan text span) (member : span ∈ cmd.strings) :
    cstr ((nulterminate cmd (text ++ [0])).drop span.q) = slice text span := by
  have isSpan := spans span member
  have inside := isSpan.inside
  have word : ((nulterminate cmd (text ++ [0])).drop span.q).take (span.eq - span.q) =
      slice text span := by
    rw [slice]
    apply ext_getElem?
    intro i
    rw [List.getElem?_take, List.getElem?_take]
    split
    next before =>
      rw [List.getElem?_drop, List.getElem?_drop, nulterminate, getElem?_foldl_set,
        if_neg fun both => isSpan.not_mem_ends spans (Nat.le_add_right _ _) (by omega) both.1,
        List.getElem?_append_left (by omega)]
    next => rfl
  have stop : (nulterminate cmd (text ++ [0]))[span.eq]? = some 0 := by
    rw [nulterminate, getElem?_foldl_set, if_pos]
    rw [Cmd.ends_eq, length_append]
    exact ⟨mem_map_of_mem member, Nat.lt_succ_of_le inside⟩
  rw [cstr_drop isSpan.ordered stop, word]
  rw [word]
  exact fun nul => line (mem_of_mem_drop (mem_of_mem_take nul))

theorem Cmd.map_congr {f g : α → β} {cmd : Cmd α}
    (agree : ∀ string ∈ cmd.strings, f string = g string) : cmd.map f = cmd.map g := by
  induction cmd with
  | exec argv => exact congrArg Cmd.exec (map_congr_left agree)
  | redir cmd file mode fd induction =>
    rw [Cmd.map, Cmd.map, induction fun string member => agree string (mem_append_left _ member),
      agree file (mem_append_right _ mem_cons_self)]
  | pipe left right induction induction' | list left right induction induction' =>
    rw [Cmd.map, Cmd.map, induction fun string member => agree string (mem_append_left _ member),
      induction' fun string member => agree string (mem_append_right _ member)]
  | back cmd induction => exact congrArg Cmd.back (induction agree)

theorem parsecmd_of_parsed (line : (0 : UInt8) ∉ text) {found : Cmd Span}
    (parsed : parseline text (4 * text.length + 4) 0 = .ok (found, s)) :
    parsecmd text = if tokens text s = [] then .ok (found.map (slice text))
      else .error (.panic .syntaxError) := by
  have inside : s ≤ text.length := by
    have advances := advances_parseline text
    rw [parsed] at advances
    exact advances.2
  obtain ⟨ts, _, _, spans⟩ := (parse_sound _).1 parsed
  have words : (found.map fun span => cstr ((nulterminate found (text ++ [0])).drop span.q)) =
      found.map (slice text) :=
    Cmd.map_congr fun span member => cstr_nulterminate line spans member
  rw [parsecmd, parsed]
  change (if (peek text s []).1 ≠ text.length then _ else Except.ok (Cmd.map _ found)) = _
  rw [peek_eq (by decide), words]
  by_cases ends : skip text s = text.length
  · rw [if_neg (not_not.mpr ends), if_pos ((tokens_eq_nil_iff line inside).mpr ends)]
  · rw [if_pos ends, if_neg (mt (tokens_eq_nil_iff line inside).mp ends)]

/-- On a line without NUL the parser stops, and it accepts the derivations of
the grammar, over the texts of the tokens, and nothing else. -/
theorem parsecmd_accepts_grammar (line : (0 : UInt8) ∉ text) :
    parsecmd text ≠ .error .fuel ∧
      ∀ cmd, parsecmd text = .ok cmd ↔ IsLine (tokens text 0) cmd := by
  refine ⟨parsecmd_ne_fuel text, fun cmd => ⟨?_, ?_⟩⟩
  · intro accepted
    obtain ⟨⟨found, s⟩, parsed, _⟩ := exists_ok_of_bind accepted
    rw [parsecmd_of_parsed line parsed] at accepted
    split at accepted
    next ends =>
      obtain ⟨ts, consumed, derived, _⟩ := (parse_sound _).1 parsed
      rw [ends, append_nil] at consumed
      rw [consumed, ← Except.ok.inj accepted]
      exact derived
    next => exact absurd accepted error_ne_ok
  · intro derived
    obtain ⟨found, s, parsed, same, left, _⟩ :=
      (parse_complete (4 * text.length + 4)).1 derived (append_nil _).symm
        (fun _ head => absurd head (Option.some_ne_none _).symm) (by omega)
    rw [parsecmd_of_parsed line parsed, if_pos left, same]

theorem parsecmd_accepts_block :
    IsLine (tokens (lit "(a>b;c)&") 0)
      (.back (.list (.redir (.exec [lit "a"]) (lit "b") 0x201 1) (.exec [lit "c"]))) :=
  ((parsecmd_accepts_grammar (by decide)).2 _).mp (by decide +kernel)

end

end StraceXv6.User.Shell
