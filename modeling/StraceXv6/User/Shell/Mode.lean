import StraceXv6.User.Shell.Session

namespace StraceXv6.User.Shell

open Option List Data
open Kernel

/-! The tracing mode that the lines ask for, and lines that leave it. -/

def requestWords (rest : List (List UInt8)) : Option Bool :=
  if rest = [] ∨ rest = [lit "on"] then some true
  else if rest = [lit "off"] then some false
  else none

/-- `strace` and `strace on` ask for tracing, `strace off` for none. -/
def request (line : List UInt8) : Option Bool :=
  if IsCd line then none
  else
    match parsecmd line with
    | .ok (.exec (first :: rest)) => if first = lit "strace" then requestWords rest else none
    | _ => none

/-- The most recent of the lines that ask for a mode asks for tracing. -/
def tracingAsked (lines : List Line) : Bool :=
  (lines.filterMap fun line => request line.bytes).getLast? = some true

theorem tracingAsked_append (lines : List Line) (line : Line) :
    tracingAsked (lines ++ [line]) = (request line.bytes).getD (tracingAsked lines) := by
  unfold tracingAsked
  rw [filterMap_append]
  cases asked : request line.bytes with
  | none | some mode => simp [asked]

def IsOption (word : List UInt8) : Prop := ∃ flag : Flag, flag.Selects word

instance (word : List UInt8) : Decidable (IsOption word) :=
  decidable_of_iff (Flag.e.Selects word ∨ Flag.f.Selects word ∨ Flag.s.Selects word ∨
      Flag.o.Selects word) (by
    constructor
    · rintro (selects | selects | selects | selects)
      · exact ⟨.e, selects⟩
      · exact ⟨.f, selects⟩
      · exact ⟨.s, selects⟩
      · exact ⟨.o, selects⟩
    · rintro ⟨flag, selects⟩
      cases flag with
      | e => exact .inl selects
      | f => exact .inr (.inl selects)
      | s => exact .inr (.inr (.inl selects))
      | o => exact .inr (.inr (.inr selects)))

/-- The second word of the line begins with the keyword. -/
def Starts (keyword : List UInt8) (rest : List (List UInt8)) : Prop :=
  ∃ second ∈ rest.head?, keyword <+: second

instance (keyword : List UInt8) (rest : List (List UInt8)) : Decidable (Starts keyword rest) :=
  inferInstanceAs (Decidable (∃ _ ∈ _, _))

theorem not_starts_nil (keyword : List UInt8) : ¬Starts keyword [] := by
  rintro ⟨second, member, _⟩
  cases member

/-- The words after `strace` hold no option, do not start with `run`, and do not
start with `on` or `off` unless they are just that or change nothing. -/
def Benign (mode : Bool) (rest : List (List UInt8)) : Prop :=
  (∀ word ∈ rest, ¬IsOption word) ∧ ¬Starts (lit "run") rest ∧
    (Starts (lit "on") rest → rest = [lit "on"] ∨ mode = true) ∧
    (Starts (lit "off") rest → rest = [lit "off"] ∨ mode = false)

instance (mode : Bool) (rest : List (List UInt8)) : Decidable (Benign mode rest) :=
  inferInstanceAs (Decidable (_ ∧ _ ∧ _ ∧ _))

/-- The words after the first lead past every branch for `strace` lines. -/
def FallsThrough (rest : List (List UInt8)) : Prop :=
  rest ≠ [] ∧ (∀ word ∈ rest, ¬IsOption word) ∧
    ∀ keyword ∈ [lit "run", lit "on", lit "off", lit "dump"], ¬Starts keyword rest

instance (rest : List (List UInt8)) : Decidable (FallsThrough rest) :=
  inferInstanceAs (Decidable (_ ∧ _ ∧ _))

/-- With tracing asked for, the line does not fail to parse; if its first word
begins with `strace`, then it is that very word with a benign rest, or the shell
runs the line like any other. -/
def KeepsMode (mode : Bool) (line : List UInt8) : Prop :=
  IsCd line ∨ ((parsecmd line).isOk = true ∨ mode = false) ∧
    ∀ argv ∈ straceArgv line,
      argv.head? = some (lit "strace") ∧ Benign mode argv.tail ∨ FallsThrough argv.tail

instance (mode : Bool) (line : List UInt8) : Decidable (KeepsMode mode line) :=
  inferInstanceAs (Decidable (_ ∨ _ ∧ _))

inductive Dispatched (globals : Globals) (first : List UInt8) (rest : List (List UInt8)) :
    Reaction → Prop where
  | departs {reaction : Reaction}
      (asked : (∃ word ∈ rest, IsOption word) ∨ Starts (lit "run") rest)
      (departs : reaction.Departs) : Dispatched globals first rest reaction
  | on {reaction : Reaction} (noOption : ∀ word ∈ rest, ¬IsOption word)
      (notRun : ¬Starts (lit "run") rest) (on : rest = [] ∨ Starts (lit "on") rest)
      (prompt : reaction.action = .prompt) (tracing : reaction.globals.tracing = 1) :
      Dispatched globals first rest reaction
  | off {reaction : Reaction} (noOption : ∀ word ∈ rest, ¬IsOption word)
      (notRun : ¬Starts (lit "run") rest) (notOn : ¬(rest = [] ∨ Starts (lit "on") rest))
      (off : Starts (lit "off") rest) (prompt : reaction.action = .prompt)
      (tracing : reaction.globals.tracing = 0) : Dispatched globals first rest reaction
  | dump {reaction : Reaction} (noOption : ∀ word ∈ rest, ¬IsOption word)
      (notRun : ¬Starts (lit "run") rest) (notOn : ¬(rest = [] ∨ Starts (lit "on") rest))
      (notOff : ¬Starts (lit "off") rest) (dump : Starts (lit "dump") rest)
      (prompt : reaction.action = .prompt)
      (tracing : reaction.globals.tracing = globals.tracing) :
      Dispatched globals first rest reaction
  | through {reaction : Reaction} (falls : FallsThrough rest)
      (forked : reaction.action = .forked (.exec (first :: rest)))
      (tracing : reaction.globals.tracing = globals.tracing) :
      Dispatched globals first rest reaction

theorem tracing_scanFlags (globals : Globals) (argv : List (List UInt8)) :
    (scanFlags globals argv).tracing = globals.tracing := by
  have scanned : ∀ words : List (List UInt8), ∀ globals : Globals,
      (words.foldl scanWord globals).tracing = globals.tracing := by
    intro words
    induction words with
    | nil => exact fun _ => rfl
    | cons word words induction =>
      intro globals
      rw [foldl_cons, induction, scanWord]
      split_ifs <;> rfl
  exact scanned argv.tail globals

variable {keyword first line : List UInt8} {globals : Globals} {rest argv : List (List UInt8)}
  {reaction : Reaction} {mode : Bool}

theorem streq_second (image : Image)
    (listed : keyword ∈ [lit "strace", lit "run", lit "on", lit "off", lit "dump"])
    (first second : List UInt8) (more : List (List UInt8)) :
    streq ((first :: second :: more).getD 1 image.text0) keyword = true ↔
      Starts keyword (second :: more) := by
  rw [streq_keyword listed]
  exact ⟨fun starts => ⟨second, rfl, starts⟩, fun ⟨_, same, starts⟩ => Option.some.inj same ▸ starts⟩

theorem dispatched_straceLine (image : Image) (line : List UInt8) (clear : globals.Clear)
    (first : List UInt8) (rest : List (List UInt8)) :
    Dispatched globals first rest (straceLine image line globals .zero (first :: rest)) := by
  by_cases options : ∃ word ∈ rest, IsOption word
  · obtain ⟨word, member, flag, selects⟩ := options
    have present : found (first :: rest) flag ≠ 0 := by
      rw [found, if_pos ⟨word, member, selects⟩]
      decide
    exact .departs (.inl ⟨word, member, flag, selects⟩)
      (straceLine_of_found image line clear ⟨flag, present⟩).1
  · have noOption : ∀ word ∈ rest, ¬IsOption word :=
      fun word member isOption => options ⟨word, member, isOption⟩
    have notFound : ∀ flag, found (first :: rest) flag = 0 := by
      intro flag
      apply if_neg
      rintro ⟨word, member, selects⟩
      exact noOption word member ⟨flag, selects⟩
    have tracing := tracing_scanFlags globals (first :: rest)
    rw [straceLine_of_notFound image line .zero clear notFound]
    cases rest with
    | nil =>
      have notRun : ¬streq ([first].getD 1 image.text0) (lit "run") = true :=
        fun accepted => image.notRun ((streq_keyword (by decide) image.text0).mp accepted)
      rw [if_neg notRun, if_pos (.inl (Nat.le_refl 1))]
      exact .on noOption (not_starts_nil _) (.inl rfl) rfl rfl
    | cons second more =>
      have long : ¬(first :: second :: more).length ≤ 1 := by
        simp only [length_cons]
        omega
      split
      next run =>
        exact .departs (.inr ((streq_second image (by decide) first second more).mp run))
          (runFrom_departs image line _ _ _)
      next notRun =>
        rw [streq_second image (by decide)] at notRun
        split
        next on =>
          have starts := on.resolve_left long
          rw [streq_second image (by decide)] at starts
          exact .on noOption notRun (.inr starts) rfl rfl
        next notOn =>
          have other : ¬(second :: more = [] ∨ Starts (lit "on") (second :: more)) := by
            rintro (empty | starts)
            · cases empty
            · exact notOn (.inr ((streq_second image (by decide) first second more).mpr starts))
          split
          next off =>
            rw [streq_second image (by decide)] at off
            exact .off noOption notRun other off rfl rfl
          next notOff =>
            rw [streq_second image (by decide)] at notOff
            split
            next dump =>
              rw [streq_second image (by decide)] at dump
              exact .dump noOption notRun other notOff dump rfl tracing
            next notDump =>
              rw [streq_second image (by decide)] at notDump
              refine .through ⟨cons_ne_nil _ _, noOption, ?_⟩ rfl tracing
              intro keyword member
              simp only [mem_cons, not_mem_nil, or_false] at member
              rcases member with rfl | rfl | rfl | rfl
              · exact notRun
              · exact fun starts => other (.inr starts)
              · exact notOff
              · exact notDump

theorem not_starts_of_starts {other : List UInt8}
    (apart : ¬keyword <+: other ∧ ¬other <+: keyword) (starts : Starts keyword rest) :
    ¬Starts other rest := by
  rintro ⟨second, same, begins⟩
  obtain ⟨word, here, start⟩ := starts
  cases Option.some.inj (here.symm.trans same)
  rcases prefix_or_prefix_of_prefix start begins with short | short
  · exact apart.1 short
  · exact apart.2 short

theorem requestWords_of_on (on : rest = [] ∨ Starts (lit "on") rest) :
    requestWords rest = if rest = [] ∨ rest = [lit "on"] then some true else none := by
  have notOff : rest ≠ [lit "off"] := by
    intro same
    subst same
    exact absurd on (by decide)
  rw [requestWords, if_neg notOff]

theorem requestWords_of_not_on (notOn : ¬(rest = [] ∨ Starts (lit "on") rest)) :
    requestWords rest = if rest = [lit "off"] then some false else none := by
  apply if_neg
  rintro (empty | same)
  · exact notOn (.inl empty)
  · subst same
    exact notOn (by decide)

theorem requestWords_of_not_off (notOn : ¬(rest = [] ∨ Starts (lit "on") rest))
    (notOff : ¬Starts (lit "off") rest) : requestWords rest = none := by
  rw [requestWords_of_not_on notOn]
  apply if_neg
  intro same
  subst same
  exact notOff (by decide)

theorem FallsThrough.notStarts (falls : FallsThrough rest) :
    ¬(rest = [] ∨ Starts (lit "on") rest) ∧ ¬Starts (lit "off") rest ∧
      ¬Starts (lit "run") rest := by
  obtain ⟨several, _, other⟩ := falls
  refine ⟨?_, other _ (by decide), other _ (by decide)⟩
  rintro (empty | starts)
  · exact several empty
  · exact other _ (by decide) starts

theorem FallsThrough.benign (falls : FallsThrough rest) (mode : Bool) : Benign mode rest := by
  obtain ⟨notOn, notOff, notRun⟩ := falls.notStarts
  exact ⟨falls.2.1, notRun, fun starts => absurd (.inr starts) notOn,
    fun starts => absurd starts notOff⟩

theorem survivor_of_prompt (prompt : reaction.action = .prompt) :
    reaction.survivor = reaction.globals := by
  rw [Reaction.survivor, prompt]
  rfl

theorem survivor_of_forked {cmd : Cmd (List UInt8)} (forked : reaction.action = .forked cmd) :
    reaction.survivor = reaction.globals := by
  rw [Reaction.survivor, forked]
  rfl

theorem launches_of_prompt (prompt : reaction.action = .prompt) : reaction.launches = [] := by
  rw [Reaction.launches, prompt]
  rfl

theorem launches_of_forked (forked : reaction.action = .forked (.exec argv))
    (nonempty : argv ≠ []) (agrees : reaction.globals.tracing ≠ 0 ↔ mode = true) :
    reaction.launches = [⟨argv, mode⟩] := by
  have traced : decide (reaction.globals.tracing ≠ 0) = mode := by
    rw [Bool.eq_iff_iff, decide_eq_true_iff]
    exact agrees
  simp only [Reaction.launches, forked, Action.command, runcmd, if_neg nonempty, traced]

/-- A line with the word `strace` leaves the shell there with the mode it asks
for, or else the mode before it, exactly if the other words are benign. -/
theorem Dispatched.stays_iff (dispatched : Dispatched globals first rest reaction)
    (agrees : globals.tracing ≠ 0 ↔ mode = true) :
    (reaction.action.keepsShell = true ∧
      (reaction.survivor.tracing ≠ 0 ↔ (requestWords rest).getD mode = true)) ↔
      Benign mode rest := by
  have one : (1 : Int32) ≠ 0 := by decide
  cases dispatched with
  | departs asked departs =>
    apply iff_of_false
    · rintro ⟨stays, _⟩
      rw [departs.gone] at stays
      cases stays
    · rintro ⟨noOption, notRun, _⟩
      rcases asked with ⟨word, member, isOption⟩ | run
      · exact noOption word member isOption
      · exact notRun run
  | on noOption notRun on prompt tracing =>
    have notOff : ¬Starts (lit "off") rest := by
      rcases on with empty | starts
      · subst empty
        exact not_starts_nil _
      · exact not_starts_of_starts (by decide) starts
    rw [survivor_of_prompt prompt, tracing, prompt, requestWords_of_on on]
    constructor
    · rintro ⟨_, asked⟩
      refine ⟨noOption, notRun, ?_, fun starts => absurd starts notOff⟩
      intro starts
      have traced := asked.mp one
      split at traced
      next named =>
        refine .inl (named.resolve_left ?_)
        intro empty
        subst empty
        exact not_starts_nil _ starts
      next => exact .inr traced
    · rintro ⟨_, _, named, _⟩
      refine ⟨rfl, iff_of_true one ?_⟩
      split
      next => rfl
      next other =>
        rcases on with empty | starts
        · exact absurd (.inl empty) other
        · exact (named starts).resolve_left fun same => other (.inr same)
  | off noOption notRun notOn off prompt tracing =>
    rw [survivor_of_prompt prompt, tracing, prompt, requestWords_of_not_on notOn]
    constructor
    · rintro ⟨_, asked⟩
      refine ⟨noOption, notRun, fun starts => absurd (.inr starts) notOn, ?_⟩
      intro _
      have untraced := mt asked.mpr fun nonzero => nonzero rfl
      split at untraced
      next named => exact .inl named
      next => exact .inr (Bool.eq_false_iff.mpr untraced)
    · rintro ⟨_, _, _, named⟩
      refine ⟨rfl, iff_of_false (fun nonzero => nonzero rfl) ?_⟩
      split
      next => exact Bool.false_ne_true
      next other =>
        rw [(named off).resolve_left other]
        exact Bool.false_ne_true
  | dump noOption notRun notOn notOff dump prompt tracing =>
    rw [survivor_of_prompt prompt, tracing, prompt, requestWords_of_not_off notOn notOff]
    exact iff_of_true ⟨rfl, agrees⟩ ⟨noOption, notRun,
      fun starts => absurd (.inr starts) notOn, fun starts => absurd starts notOff⟩
  | through falls forked tracing =>
    obtain ⟨notOn, notOff, _⟩ := falls.notStarts
    rw [survivor_of_forked forked, tracing, forked, requestWords_of_not_off notOn notOff]
    exact iff_of_true ⟨rfl, agrees⟩ (falls.benign mode)

/-- A line with another first word is run as it stands, in the mode before it and
with that mode after it, exactly if its words lead past every branch. -/
theorem Dispatched.runs_iff (dispatched : Dispatched globals first rest reaction)
    (agrees : globals.tracing ≠ 0 ↔ mode = true) :
    ((reaction.survivor.tracing ≠ 0 ↔ mode = true) ∧
      reaction.launches = [⟨first :: rest, mode⟩]) ↔ FallsThrough rest := by
  cases dispatched with
  | departs asked departs =>
    apply iff_of_false
    · rintro ⟨survives, runs⟩
      rw [departs.survivor] at survives
      have traced := departs.traced ⟨first :: rest, mode⟩
        (by rw [runs]; exact mem_singleton_self _)
      exact survives.mpr traced rfl
    · intro falls
      obtain ⟨_, _, notRun⟩ := falls.notStarts
      rcases asked with ⟨word, member, isOption⟩ | run
      · exact falls.2.1 word member isOption
      · exact notRun run
  | on noOption notRun on prompt tracing =>
    apply iff_of_false
    · rintro ⟨_, runs⟩
      rw [launches_of_prompt prompt] at runs
      cases runs
    · exact fun falls => falls.notStarts.1 on
  | off noOption notRun notOn off prompt tracing =>
    apply iff_of_false
    · rintro ⟨_, runs⟩
      rw [launches_of_prompt prompt] at runs
      cases runs
    · exact fun falls => falls.notStarts.2.1 off
  | dump noOption notRun notOn notOff dump prompt tracing =>
    apply iff_of_false
    · rintro ⟨_, runs⟩
      rw [launches_of_prompt prompt] at runs
      cases runs
    · exact fun falls => falls.2.2 _ (by decide) dump
  | through falls forked tracing =>
    rw [survivor_of_forked forked, tracing]
    exact iff_of_true ⟨agrees,
      launches_of_forked forked (cons_ne_nil _ _) (tracing ▸ agrees)⟩ falls

def IsPlain (line : List UInt8) (argv : List (List UInt8)) : Prop :=
  ¬IsCd line ∧ parsecmd line = .ok (.exec argv) ∧ argv ≠ [] ∧
    argv.head? ≠ some (lit "strace")

def IsStrace (line : List UInt8) : Prop :=
  ¬IsCd line ∧ ∃ rest, parsecmd line = .ok (.exec (lit "strace" :: rest))

theorem straceArgv_of_isStrace (parsed : parsecmd line = .ok (.exec (lit "strace" :: rest))) :
    straceArgv line = some (lit "strace" :: rest) := by
  simp only [straceArgv, parsed]
  exact if_pos (prefix_refl _)

theorem parsecmd_of_straceArgv (strace : straceArgv line = some argv) :
    parsecmd line = .ok (.exec argv) := by
  unfold straceArgv at strace
  split at strace
  next first rest parsed =>
    split at strace
    next =>
      cases strace
      exact parsed
    next => cases strace
  next => cases strace

theorem words_of_straceArgv (strace : straceArgv line = some argv) :
    ∃ first rest, argv = first :: rest := by
  unfold straceArgv at strace
  split at strace
  next first rest _ =>
    split at strace
    next =>
      cases strace
      exact ⟨first, rest, rfl⟩
    next => cases strace
  next => cases strace

theorem request_of_not_strace (notStrace : straceArgv line = none) : request line = none := by
  unfold request
  split
  next => rfl
  next =>
    split
    next first rest parsed =>
      apply if_neg
      intro same
      subst same
      rw [straceArgv_of_isStrace parsed] at notStrace
      cases notStrace
    next => rfl

/-- What is to hold of a line read in a shell that agrees with the mode. -/
structure ReadInMode (image : Image) (line : List UInt8) (globals : Globals)
    (before : Options) (mode : Bool) : Prop where
  tracing : (readLine image line globals before).survivor.tracing ≠ 0 ↔
    (request line).getD mode = true
  traced : ∀ argv, IsPlain line argv →
    (readLine image line globals before).launches = [⟨argv, mode⟩]
  stays : IsStrace line → (readLine image line globals before).action.keepsShell = true

section

variable (image : Image) {line : List UInt8} {globals : Globals} {mode : Bool}
    (before : Options)

theorem readInMode_panic_iff {stop : Stop} (notCd : ¬IsCd line)
    (parsed : parsecmd line = .error stop) :
    ReadInMode image line globals before mode ↔ mode = false := by
  have reaction := readLine_of_panic image globals before notCd parsed
  have notStrace : straceArgv line = none := by
    simp only [straceArgv, parsed]
  constructor
  · intro follows
    have untraced := mt follows.tracing.mpr
      (by rw [reaction]; exact fun nonzero => nonzero rfl)
    rw [request_of_not_strace notStrace] at untraced
    exact Bool.eq_false_iff.mpr untraced
  · intro untraced
    refine ⟨?_, ?_, ?_⟩
    · rw [reaction, request_of_not_strace notStrace, untraced]
      exact iff_of_false (fun nonzero => nonzero rfl) Bool.false_ne_true
    · rintro argv ⟨_, plain, _⟩
      rw [parsed] at plain
      cases plain
    · rintro ⟨_, rest, strace⟩
      rw [parsed] at strace
      cases strace

theorem readInMode_of_command {cmd : Cmd (List UInt8)}
    (agrees : globals.tracing ≠ 0 ↔ mode = true) (notCd : ¬IsCd line)
    (parsed : parsecmd line = .ok cmd) (notStrace : straceArgv line = none) :
    ReadInMode image line globals before mode := by
  have reaction := readLine_of_command image globals before notCd parsed notStrace
  refine ⟨?_, ?_, ?_⟩
  · rw [reaction, request_of_not_strace notStrace]
    exact agrees
  · rintro argv ⟨_, plain, nonempty, _⟩
    rw [parsed] at plain
    cases plain
    rw [reaction]
    exact launches_of_forked rfl nonempty agrees
  · intro _
    rw [reaction]
    rfl

variable {rest : List (List UInt8)}

theorem readInMode_strace_iff (clear : globals.Clear) (agrees : globals.tracing ≠ 0 ↔ mode = true)
    (notCd : ¬IsCd line) (strace : straceArgv line = some (lit "strace" :: rest)) :
    ReadInMode image line globals before mode ↔ Benign mode rest := by
  have parsed := parsecmd_of_straceArgv strace
  have reaction := readLine_of_strace image globals before notCd strace
  have asked : request line = requestWords rest := by
    simp only [request, if_neg notCd, parsed, if_true]
  rw [← (dispatched_straceLine image line clear (lit "strace") rest).stays_iff agrees,
    ← reaction, ← asked]
  constructor
  · intro follows
    exact ⟨follows.stays ⟨notCd, rest, parsed⟩, follows.tracing⟩
  · rintro ⟨stays, tracing⟩
    refine ⟨tracing, ?_, fun _ => stays⟩
    rintro argv ⟨_, plain, _, other⟩
    rw [parsed] at plain
    cases plain
    exact absurd rfl other

theorem readInMode_misread_iff {first : List UInt8} (clear : globals.Clear)
    (agrees : globals.tracing ≠ 0 ↔ mode = true) (notCd : ¬IsCd line)
    (strace : straceArgv line = some (first :: rest)) (other : first ≠ lit "strace") :
    ReadInMode image line globals before mode ↔ FallsThrough rest := by
  have parsed := parsecmd_of_straceArgv strace
  have reaction := readLine_of_strace image globals before notCd strace
  have unasked : request line = none := by
    simp only [request, if_neg notCd, parsed, if_neg other]
  rw [← (dispatched_straceLine image line clear first rest).runs_iff agrees, ← reaction]
  constructor
  · intro follows
    have tracing := follows.tracing
    rw [unasked] at tracing
    exact ⟨tracing, follows.traced (first :: rest) ⟨notCd, parsed, cons_ne_nil _ _,
      fun same => other (Option.some.inj same)⟩⟩
  · rintro ⟨tracing, runs⟩
    refine ⟨?_, ?_, ?_⟩
    · rw [unasked]
      exact tracing
    · rintro argv ⟨_, plain, _⟩
      rw [parsed] at plain
      cases plain
      exact runs
    · rintro ⟨_, words, same⟩
      rw [parsed] at same
      cases same
      exact absurd rfl other

theorem readInMode_iff (clear : globals.Clear)
    (agrees : globals.tracing ≠ 0 ↔ mode = true) :
    ReadInMode image line globals before mode ↔ KeepsMode mode line := by
  by_cases cd : IsCd line
  · refine iff_of_true ⟨?_, fun _ plain => absurd cd plain.1,
      fun strace => absurd cd strace.1⟩ (.inl cd)
    rw [readLine, if_pos cd, request, if_pos cd]
    exact agrees
  · rw [KeepsMode, or_iff_right cd]
    cases strace : straceArgv line with
    | none =>
      simp only [not_mem_none, false_imp_iff, implies_true, and_true]
      cases parsed : parsecmd line with
      | error stop =>
        rw [readInMode_panic_iff image before cd parsed]
        exact (or_iff_right Bool.false_ne_true).symm
      | ok cmd =>
        exact iff_of_true (readInMode_of_command image before agrees cd parsed strace)
          (.inl rfl)
    | some argv =>
      obtain ⟨first, rest, words⟩ := words_of_straceArgv strace
      subst words
      have parses : (parsecmd line).isOk = true ∨ mode = false := by
        rw [parsecmd_of_straceArgv strace]
        exact .inl rfl
      by_cases named : first = lit "strace"
      · subst named
        rw [readInMode_strace_iff image before clear agrees cd strace]
        constructor
        · intro benign
          refine ⟨parses, ?_⟩
          rintro argv ⟨⟩
          exact .inl ⟨rfl, benign⟩
        · rintro ⟨_, kept⟩
          rcases kept _ rfl with ⟨_, benign⟩ | falls
          · exact benign
          · exact falls.benign mode
      · rw [readInMode_misread_iff image before clear agrees cd strace named]
        constructor
        · intro falls
          refine ⟨parses, ?_⟩
          rintro argv ⟨⟩
          exact .inr falls
        · rintro ⟨_, kept⟩
          rcases kept _ rfl with ⟨same, _⟩ | falls
          · exact absurd (Option.some.inj same) named
          · exact falls

end

/-- A plain command is run once, traced if the lines before asked for that, and
no `strace` line ends the shell. -/
structure Entry.FollowsMode (entry : Entry) : Prop where
  traced : ∀ argv, IsPlain entry.line.bytes argv →
    entry.reaction.launches = [⟨argv, tracingAsked entry.earlier⟩]
  stays : IsStrace entry.line.bytes → entry.reaction.action.keepsShell = true

namespace Session

def LabelKeepsMode (s : Session) : Label → Prop
  | .typed line _ => KeepsMode (tracingAsked s.lines) line.bytes
  | .call _ _ | .finished => True

instance (s : Session) : (label : Label) → Decidable (s.LabelKeepsMode label)
  | .typed _ _ => inferInstanceAs (Decidable (KeepsMode _ _))
  | .call _ _ | .finished => .isTrue trivial

def FollowsMode (s : Session) : Prop := ∀ entry ∈ s.history, entry.FollowsMode

structure Agrees (s : Session) : Prop where
  clear : s.shell.Clear
  tracing : s.shell.tracing ≠ 0 ↔ tracingAsked s.lines = true
  followed : s.FollowsMode

theorem lines_read (image : Image) (s : Session) (line : Line) (afterBuf : List UInt8) :
    (s.read image line afterBuf).lines = s.lines ++ [line] := by
  simp only [lines, read, map_append, map_cons, map_nil]

variable {s : Session}

theorem Agrees.read_iff (agrees : s.Agrees) (image : Image) (line : Line) (afterBuf : List UInt8) :
    (s.read image line afterBuf).Agrees ↔
      KeepsMode (tracingAsked s.lines) line.bytes := by
  have clear := (readLine_leaves { image with afterBuf := afterBuf } line.bytes
    agrees.clear s.filter).1
  rw [← readInMode_iff { image with afterBuf := afterBuf } s.filter agrees.clear
    agrees.tracing]
  constructor
  · intro after
    have tracing := after.tracing
    have followed := after.followed _ (mem_append_right _ (mem_singleton_self _))
    rw [lines_read, tracingAsked_append] at tracing
    exact ⟨tracing, followed.traced, followed.stays⟩
  · rintro ⟨tracing, traced, stays⟩
    refine ⟨clear, ?_, ?_⟩
    · rw [lines_read, tracingAsked_append]
      exact tracing
    · intro entry member
      rcases mem_append.mp member with old | new
      · exact agrees.followed entry old
      · cases mem_singleton.mp new
        exact ⟨traced, stays⟩

theorem Agrees.step {image : Image} {next : Session} {label : Label} (agrees : s.Agrees)
    (keeps : s.LabelKeepsMode label) (moves : Moves image s label next) : next.Agrees := by
  cases moves with
  | typed line afterBuf => exact (agrees.read_iff image line afterBuf).mpr keeps
  | foreground line sys _ | finished => exact ⟨agrees.clear, agrees.tracing, agrees.followed⟩
  | background sys => exact agrees

theorem step_typed (image : Image) (idle : s.running = none) (line : Line) (afterBuf : List UInt8) :
    s.step image (.typed line afterBuf) = some (s.read image line afterBuf) := by
  simp only [Session.step, idle]

theorem not_followsMode_ls (image : Image)
    (disagrees : ¬(s.shell.tracing ≠ 0 ↔ tracingAsked s.lines = true)) :
    ¬(s.read image .ls []).FollowsMode := by
  have plain : IsPlain Line.ls.bytes [lit "ls"] :=
    ⟨by decide, by decide +kernel, by decide, by decide⟩
  have reaction := readLine_of_command { image with afterBuf := [] } s.shell s.filter
    plain.1 plain.2.1 (by decide +kernel)
  intro follows
  have traced := (follows _ (mem_append_right _ (mem_singleton_self _))).traced
    [lit "ls"] plain
  rw [reaction, launches_of_forked rfl plain.2.2.1 decide_eq_true_iff.symm] at traced
  simp only [List.cons.injEq, Launch.mk.injEq, true_and, and_true] at traced
  rw [← traced, decide_eq_true_iff] at disagrees
  exact disagrees Iff.rfl

theorem exists_unfollowed (image : Image)
    (disagrees : ¬(s.shell.tracing ≠ 0 ↔ tracingAsked s.lines = true)) :
    ∃ labels next, run (Session.step image) s labels = some next ∧ ¬next.FollowsMode := by
  cases running : s.running with
  | none =>
    refine ⟨[.typed .ls []], s.read image .ls [], ?_, not_followsMode_ls image disagrees⟩
    exact run_cons_eq_some.mpr ⟨_, step_typed image running .ls [], rfl⟩
  | some line =>
    have finished : s.step image .finished = some { s with running := none } := by
      simp only [Session.step, running, map_some]
    have typed := step_typed image (rfl : { s with running := none }.running = none) .ls []
    refine ⟨[.finished, .typed .ls []], { s with running := none }.read image .ls [], ?_,
      not_followsMode_ls image disagrees⟩
    exact run_cons_eq_some.mpr ⟨_, finished, run_cons_eq_some.mpr ⟨_, typed, rfl⟩⟩

theorem exists_unfollowed_of_not_keepsMode (image : Image) (agrees : s.Agrees)
    (idle : s.running = none) {line : Line} (afterBuf : List UInt8)
    (breaks : ¬KeepsMode (tracingAsked s.lines) line.bytes) :
    ∃ later next, run (Session.step image) s (.typed line afterBuf :: later) = some next ∧
      ¬next.FollowsMode := by
  have clear := (readLine_leaves { image with afterBuf := afterBuf } line.bytes
    agrees.clear s.filter).1
  have typed := step_typed image idle line afterBuf
  by_cases followed : (s.read image line afterBuf).FollowsMode
  · have disagrees : ¬((s.read image line afterBuf).shell.tracing ≠ 0 ↔
        tracingAsked (s.read image line afterBuf).lines = true) :=
      fun tracing => breaks
        ((agrees.read_iff image line afterBuf).mp ⟨clear, tracing, followed⟩)
    obtain ⟨later, next, reached, unfollowed⟩ := exists_unfollowed image disagrees
    exact ⟨later, next, run_cons_eq_some.mpr ⟨_, typed, reached⟩, unfollowed⟩
  · exact ⟨[], _, run_cons_eq_some.mpr ⟨_, typed, rfl⟩, followed⟩

def onThenOff : List Label :=
  [.typed ⟨lit "strace on\n", by decide, by decide, by decide⟩ [],
    .typed .ls [], .finished,
    .typed ⟨lit "strace off\n", by decide, by decide, by decide⟩ [],
    .typed .ls [], .finished]

def onThenRun : List Label :=
  [.typed ⟨lit "strace on\n", by decide, by decide, by decide⟩ [],
    .typed ⟨lit "strace run ls\n", by decide, by decide, by decide⟩ [], .finished,
    .typed .ls []]

end Session

end StraceXv6.User.Shell
