import StraceXv6.Data.Run
import StraceXv6.User.Shell.Main

namespace StraceXv6.User.Shell

open List Data
open Kernel

/-! The console session: lines typed one after another, a new shell started by
`init` whenever one has gone, and the system calls of the commands in between. -/

def Action.keepsShell : Action → Bool
  | .prompt | .forked _ => true
  | .replaced _ | .exited => false

/-- The globals of the shell that reads the next line. -/
def Reaction.survivor (reaction : Reaction) : Globals :=
  if reaction.action.keepsShell then reaction.globals else .start

def Action.command : Action → Option (Cmd (List UInt8))
  | .forked cmd | .replaced cmd => some cmd
  | .prompt | .exited => none

def Reaction.launches (reaction : Reaction) : List Launch :=
  match reaction.action.command with
  | some cmd => runcmd reaction.globals.tracing cmd
  | none => []

/-- A line, the lines typed before it, and what the shell made of it. -/
structure Entry where
  earlier : List Line
  line : Line
  reaction : Reaction

structure ForegroundCall where
  line : Line
  sys : Sys
  filter : Options

structure Session where
  shell : Globals
  filter : Options
  history : List Entry
  running : Option Line
  calls : List ForegroundCall

namespace Session

def boot : Session := ⟨.start, .zero, [], none, []⟩

def lines (s : Session) : List Line := s.history.map Entry.line

/-- A line typed at the prompt, with what lies behind `buf` by then; a system
call of a command, in the foreground or left in the background; the end of the
foreground command. -/
inductive Label where
  | typed (line : Line) (afterBuf : List UInt8)
  | call (foreground : Bool) (sys : Sys)
  | finished

def read (image : Image) (s : Session) (line : Line) (afterBuf : List UInt8) : Session :=
  let reaction := readLine { image with afterBuf := afterBuf } line.bytes s.shell s.filter
  { s with
    shell := reaction.survivor
    filter := reaction.options
    history := s.history ++ [⟨s.lines, line, reaction⟩]
    running := reaction.action.command.map fun _ => line }

/-- Commands do not call `set_options` or `set_call_flag` themselves. -/
def step (image : Image) (s : Session) : Label → Option Session
  | .typed line afterBuf =>
    match s.running with
    | none => some (s.read image line afterBuf)
    | some _ => none
  | .call foreground sys =>
    if sys = .setOptions ∨ sys = .setCallFlag then none
    else if foreground then
      s.running.map fun line => { s with calls := s.calls ++ [⟨line, sys, s.filter⟩] }
    else some s
  | .finished => s.running.map fun _ => { s with running := none }

inductive Moves (image : Image) (s : Session) : Label → Session → Prop where
  | typed (line : Line) (afterBuf : List UInt8) :
      Moves image s (.typed line afterBuf) (s.read image line afterBuf)
  | foreground (line : Line) (sys : Sys) (running : s.running = some line) :
      Moves image s (.call true sys) { s with calls := s.calls ++ [⟨line, sys, s.filter⟩] }
  | background (sys : Sys) : Moves image s (.call false sys) s
  | finished : Moves image s .finished { s with running := none }

theorem moves_of_step {image : Image} {s next : Session} {label : Label}
    (stepped : s.step image label = some next) : Moves image s label next := by
  cases label with
  | typed line afterBuf =>
    simp only [step] at stepped
    split at stepped
    next =>
      cases stepped
      exact .typed line afterBuf
    next => cases stepped
  | call foreground sys =>
    simp only [step] at stepped
    split at stepped
    next => cases stepped
    next =>
      cases foreground with
      | false =>
        cases stepped
        exact .background sys
      | true =>
        obtain ⟨line, running, same⟩ := Option.map_eq_some_iff.mp stepped
        subst same
        exact .foreground line sys running
  | finished =>
    obtain ⟨line, _, same⟩ := Option.map_eq_some_iff.mp stepped
    subst same
    exact .finished

end Session

def Globals.Clear (globals : Globals) : Prop := ∀ flag, globals.flag flag = 0

def found (argv : List (List UInt8)) (flag : Flag) : Int32 :=
  if ∃ word ∈ argv.tail, flag.Selects word then 1 else 0

variable {globals : Globals} {argv : List (List UInt8)} {line : List UInt8}

theorem flag_scanFlags (clear : globals.Clear) (argv : List (List UInt8)) (flag : Flag) :
    (scanFlags globals argv).flag flag = found argv flag := by
  rw [scanFlags, flag_foldl_scanWord, clear flag]
  rfl

/-- The filter that the options of a `strace` line ask for. -/
def lineOptions (image : Image) (argv : List (List UInt8)) : Options where
  flagE := found argv .e
  flagF := found argv .f
  flagS := found argv .s
  flagO := found argv .o
  syscallFlag :=
    if found argv .e = 0 then 0
    else if found argv .s ≠ 0 ∨ found argv .f ≠ 0 then
      foundCall (argv.getD 3 image.text0)
    else foundCall (argv.getD 2 image.text0)

theorem traced_of_mem_runcmd {tracing : Int32} (nonzero : tracing ≠ 0)
    (cmd : Cmd (List UInt8)) : ∀ launch ∈ runcmd tracing cmd, launch.traced = true := by
  induction cmd with
  | exec argv =>
    intro launch member
    simp only [runcmd] at member
    split at member
    next => cases member
    next =>
      cases mem_singleton.mp member
      exact decide_eq_true nonzero
  | redir cmd _ _ _ induction | back cmd induction => exact induction
  | pipe left right first second | list left right first second =>
    intro launch member
    rcases mem_append.mp member with here | there
    · exact first launch here
    · exact second launch there

/-- The shell is gone, and what was run in its place is traced. -/
structure Reaction.Departs (reaction : Reaction) : Prop where
  gone : reaction.action.keepsShell = false
  traced : ∀ launch ∈ reaction.launches, launch.traced = true

theorem Reaction.Departs.survivor {reaction : Reaction} (departs : reaction.Departs) :
    reaction.survivor = .start := by
  rw [Reaction.survivor, departs.gone]
  rfl

theorem runFrom_departs (image : Image) (line : List UInt8) (globals : Globals)
    (options : Options) (ps : Nat) : (runFrom image line globals options ps).Departs := by
  have one : (1 : Int32) ≠ 0 := by decide
  unfold runFrom
  split
  next cmd _ => exact ⟨rfl, traced_of_mem_runcmd one cmd⟩
  next => exact ⟨rfl, fun _ member => absurd member not_mem_nil⟩

theorem clear_start : Globals.start.Clear := by
  intro flag
  cases flag <;> rfl

theorem Globals.Clear.withTracing (clear : globals.Clear) (tracing : Int32) :
    { globals with tracing := tracing }.Clear := by
  intro flag
  cases flag with
  | e => exact clear .e
  | f => exact clear .f
  | s => exact clear .s
  | o => exact clear .o

theorem straceLine_of_notFound (image : Image) (line : List UInt8) (options : Options)
    (clear : globals.Clear) (notFound : ∀ flag, found argv flag = 0) :
    straceLine image line globals options argv =
      if streq (argv.getD 1 image.text0) (lit "run") then
        runFrom image line (scanFlags globals argv) (setOptions options 0 0 0 0)
          (wordsLength image argv 2)
      else if argv.length ≤ 1 ∨ streq (argv.getD 1 image.text0) (lit "on") then
        ⟨{ scanFlags globals argv with tracing := 1 }, setOptions options 0 0 0 0, .prompt⟩
      else if streq (argv.getD 1 image.text0) (lit "off") then
        ⟨{ scanFlags globals argv with tracing := 0 }, setOptions options 0 0 0 0, .prompt⟩
      else if streq (argv.getD 1 image.text0) (lit "dump") then
        ⟨scanFlags globals argv, setOptions options 0 0 0 0, .prompt⟩
      else ⟨scanFlags globals argv, setOptions options 0 0 0 0, .forked (.exec argv)⟩ := by
  have e : (scanFlags globals argv).flagE = 0 :=
    (flag_scanFlags clear argv .e).trans (notFound .e)
  have f : (scanFlags globals argv).flagF = 0 :=
    (flag_scanFlags clear argv .f).trans (notFound .f)
  have s : (scanFlags globals argv).flagS = 0 :=
    (flag_scanFlags clear argv .s).trans (notFound .s)
  have o : (scanFlags globals argv).flagO = 0 :=
    (flag_scanFlags clear argv .o).trans (notFound .o)
  simp only [straceLine, e, f, s, o, ne_eq, not_true_eq_false, or_self, if_false]

/-- With an option, the shell is gone after the line, and if it ran a command it
did so under the options of the line. -/
theorem straceLine_of_found (image : Image) (line : List UInt8) (clear : globals.Clear)
    (someFound : ∃ flag, found argv flag ≠ 0) :
    (straceLine image line globals .zero argv).Departs ∧
      ((straceLine image line globals .zero argv).action.command ≠ none →
        (straceLine image line globals .zero argv).options = lineOptions image argv) := by
  have e : (scanFlags globals argv).flagE = found argv .e := flag_scanFlags clear argv .e
  have f : (scanFlags globals argv).flagF = found argv .f := flag_scanFlags clear argv .f
  have s : (scanFlags globals argv).flagS = found argv .s := flag_scanFlags clear argv .s
  have o : (scanFlags globals argv).flagO = found argv .o := flag_scanFlags clear argv .o
  simp only [straceLine, lineOptions, e, f, s, o]
  by_cases output : found argv .o ≠ 0
  · rw [if_pos output]
    exact ⟨⟨rfl, fun _ member => absurd member not_mem_nil⟩,
      fun runs => absurd rfl runs⟩
  · have selected : found argv .f ≠ 0 ∨ found argv .e ≠ 0 ∨ found argv .s ≠ 0 := by
      obtain ⟨flag, present⟩ := someFound
      cases flag with
      | e => exact .inr (.inl present)
      | f => exact .inl present
      | s => exact .inr (.inr present)
      | o => exact absurd present output
    simp only [if_neg output, if_pos selected]
    by_cases outcome : found argv .s ≠ 0 ∨ found argv .f ≠ 0
    · by_cases named : found argv .e = 0
      · simp only [if_pos outcome, if_pos named, if_neg (not_not.mpr named)]
        exact ⟨runFrom_departs image line _ _ _, fun _ => runFrom_options image line _ _ _⟩
      · simp only [if_pos outcome, if_neg named, if_pos named]
        exact ⟨runFrom_departs image line _ _ _, fun _ => runFrom_options image line _ _ _⟩
    · have named : found argv .e ≠ 0 := by
        rcases selected with failing | named | succeeding
        · exact absurd (.inr failing) outcome
        · exact named
        · exact absurd (.inl succeeding) outcome
      simp only [if_neg outcome, if_neg named]
      exact ⟨runFrom_departs image line _ _ _, fun _ => runFrom_options image line _ _ _⟩

theorem lineOptions_of_notFound (image : Image) (notFound : ∀ flag, found argv flag = 0) :
    lineOptions image argv = .zero := by
  simp only [lineOptions, notFound, if_true]
  rfl

theorem straceLine_leaves (image : Image) (line : List UInt8) (clear : globals.Clear)
    (argv : List (List UInt8)) :
    (straceLine image line globals .zero argv).survivor.Clear ∧
      ((straceLine image line globals .zero argv).action.command ≠ none →
        (straceLine image line globals .zero argv).options = lineOptions image argv) := by
  by_cases someFound : ∃ flag, found argv flag ≠ 0
  · obtain ⟨departs, options⟩ := straceLine_of_found image line clear someFound
    exact ⟨departs.survivor ▸ clear_start, options⟩
  · have notFound : ∀ flag, found argv flag = 0 :=
      fun flag => not_not.mp fun present => someFound ⟨flag, present⟩
    have scanned : (scanFlags globals argv).Clear :=
      fun flag => (flag_scanFlags clear argv flag).trans (notFound flag)
    rw [straceLine_of_notFound image line .zero clear notFound,
      lineOptions_of_notFound image notFound]
    split
    next =>
      rw [(runFrom_departs image line _ _ _).survivor, runFrom_options]
      exact ⟨clear_start, fun _ => rfl⟩
    next =>
      split
      next => exact ⟨scanned.withTracing 1, fun _ => rfl⟩
      next =>
        split
        next => exact ⟨scanned.withTracing 0, fun _ => rfl⟩
        next =>
          split
          next => exact ⟨scanned, fun _ => rfl⟩
          next => exact ⟨scanned, fun _ => rfl⟩

theorem streq_keyword {keyword : List UInt8}
    (listed : keyword ∈ [lit "strace", lit "run", lit "on", lit "off", lit "dump"])
    (word : List UInt8) : streq word keyword = true ↔ keyword <+: word := by
  have clean : ∀ keyword ∈ [lit "strace", lit "run", lit "on", lit "off", lit "dump"],
      (0 : UInt8) ∉ keyword ∧ '\n'.toUInt8 ∉ keyword := by decide
  obtain ⟨noNul, noNewline⟩ := clean keyword listed
  rw [streq_eq_isPrefixOf noNul (.inr noNewline), isPrefixOf_iff_prefix]

def straceArgv (line : List UInt8) : Option (List (List UInt8)) :=
  match parsecmd line with
  | .ok (.exec (first :: rest)) =>
    if lit "strace" <+: first then some (first :: rest) else none
  | _ => none

theorem readLine_of_panic (image : Image) (globals : Globals) (before : Options) {stop : Stop}
    (notCd : ¬IsCd line) (parsed : parsecmd line = .error stop) :
    readLine image line globals before = ⟨globals, .zero, .exited⟩ := by
  simp only [readLine, if_neg notCd, parsed]
  rfl

theorem readLine_of_strace (image : Image) (globals : Globals) (before : Options)
    (notCd : ¬IsCd line) (strace : straceArgv line = some argv) :
    readLine image line globals before = straceLine image line globals .zero argv := by
  unfold straceArgv at strace
  split at strace
  next first rest parsed =>
    obtain ⟨called, rfl⟩ := of_guard strace
    have accepted : streq (argv0 image (.exec (first :: rest))) (lit "strace") = true :=
      (streq_keyword (by decide) first).mpr called
    simp only [readLine, if_neg notCd, parsed, if_pos accepted]
    rfl
  next => cases strace

theorem readLine_of_command (image : Image) (globals : Globals) (before : Options)
    {cmd : Cmd (List UInt8)} (notCd : ¬IsCd line) (parsed : parsecmd line = .ok cmd)
    (notStrace : straceArgv line = none) :
    readLine image line globals before = ⟨globals, .zero, .forked cmd⟩ := by
  have short : ∀ code : UInt8, ¬lit "strace" <+: [code] := by
    intro code starts
    have length : 6 ≤ 1 := starts.length_le
    exact absurd length (by decide)
  have rejected : ¬streq (argv0 image cmd) (lit "strace") = true := by
    rw [streq_keyword (by decide)]
    cases cmd with
    | exec argv =>
      cases argv with
      | nil => exact image.notStrace
      | cons first rest =>
        intro called
        change lit "strace" <+: first at called
        simp only [straceArgv, parsed] at notStrace
        rw [if_pos called] at notStrace
        cases notStrace
    | redir cmd _ _ _ | back cmd => exact short cmd.typeCode
    | pipe left _ | list left _ => exact short left.typeCode
  simp only [readLine, if_neg notCd, parsed, if_neg rejected]
  rfl

def lineFilter (image : Image) (line : List UInt8) : Options :=
  match straceArgv line with
  | some argv => lineOptions image argv
  | none => .zero

def HasOptions (line : List UInt8) : Prop :=
  ∃ argv, straceArgv line = some argv ∧ ∃ flag, found argv flag ≠ 0

theorem lineFilter_of_not_hasOptions (image : Image) (none : ¬HasOptions line) :
    lineFilter image line = .zero := by
  unfold lineFilter
  split
  next argv strace =>
    apply lineOptions_of_notFound
    intro flag
    exact not_not.mp fun present => none ⟨argv, strace, flag, present⟩
  next => rfl

theorem readLine_leaves (image : Image) (line : List UInt8) (clear : globals.Clear)
    (before : Options) :
    (readLine image line globals before).survivor.Clear ∧
      ((readLine image line globals before).action.command ≠ none →
        (readLine image line globals before).options = lineFilter image line) := by
  by_cases cd : IsCd line
  · rw [readLine, if_pos cd]
    exact ⟨clear, fun runs => absurd rfl runs⟩
  · cases strace : straceArgv line with
    | some argv =>
      rw [readLine_of_strace image globals before cd strace, lineFilter, strace]
      exact straceLine_leaves image line clear argv
    | none =>
      rw [lineFilter, strace]
      cases parsed : parsecmd line with
      | error stop =>
        rw [readLine_of_panic image globals before cd parsed]
        exact ⟨clear_start, fun _ => rfl⟩
      | ok cmd =>
        rw [readLine_of_command image globals before cd parsed strace]
        exact ⟨clear, fun _ => rfl⟩

namespace Session

structure Filtered (image : Image) (s : Session) : Prop where
  clear : s.shell.Clear
  current : ∀ line, s.running = some line → s.filter = lineFilter image line.bytes
  logged : ∀ call ∈ s.calls, call.filter = lineFilter image call.line.bytes

variable {image : Image} {s : Session}

theorem Filtered.read (filtered : s.Filtered image) (line : Line) (afterBuf : List UInt8) :
    (s.read image line afterBuf).Filtered image := by
  obtain ⟨clear, options⟩ :=
    readLine_leaves { image with afterBuf := afterBuf } line.bytes filtered.clear s.filter
  refine ⟨clear, ?_, filtered.logged⟩
  intro current runs
  obtain ⟨cmd, started, same⟩ := Option.map_eq_some_iff.mp runs
  subst same
  apply options
  rw [started]
  exact Option.some_ne_none cmd

theorem Filtered.step {next : Session} {label : Label} (filtered : s.Filtered image)
    (moves : Moves image s label next) : next.Filtered image := by
  cases moves with
  | typed line afterBuf => exact filtered.read line afterBuf
  | foreground line sys running =>
    refine ⟨filtered.clear, filtered.current, ?_⟩
    intro call member
    rcases mem_append.mp member with old | new
    · exact filtered.logged call old
    · cases mem_singleton.mp new
      exact filtered.current line running
  | background sys => exact filtered
  | finished =>
    refine ⟨filtered.clear, ?_, filtered.logged⟩
    intro line running
    cases running

theorem filtered_boot (image : Image) : boot.Filtered image :=
  ⟨clear_start, fun _ running => absurd running (Option.some_ne_none _).symm,
    fun _ member => absurd member not_mem_nil⟩

/-- Every system call of a foreground command is made under the filter of its own
line, which is no filter at all for a line without options. -/
theorem foreground_filter_of_line (image : Image) (labels : List Label) (s : Session)
    (reached : run (Session.step image) boot labels = some s) :
    ∀ call ∈ s.calls, call.filter = lineFilter image call.line.bytes ∧
      (¬HasOptions call.line.bytes → call.filter = .zero) := by
  have filtered : s.Filtered image :=
    run_preserves (Filtered image) (fun _ _ _ before stepped => before.step (moves_of_step stepped))
      (filtered_boot image) reached
  intro call member
  refine ⟨filtered.logged call member, ?_⟩
  intro none
  rw [filtered.logged call member, lineFilter_of_not_hasOptions image none]

def flaggedThenPlain : List Label :=
  [.typed ⟨lit "strace -s ls\n", by decide, by decide, by decide⟩ [], .call true .exec,
    .finished, .typed .ls [], .call true .exec]

theorem flaggedThenPlain_filter_of_line :
    ∃ s, run (Session.step .prologue) boot flaggedThenPlain = some s ∧
      s.calls.map ForegroundCall.filter = [⟨0, 0, 1, 0, 0⟩, .zero] ∧
      ∀ call ∈ s.calls, call.filter = lineFilter .prologue call.line.bytes ∧
        (¬HasOptions call.line.bytes → call.filter = .zero) := by
  have finished : ((run (Session.step .prologue) boot flaggedThenPlain).map fun s =>
      s.calls.map ForegroundCall.filter) = some [⟨0, 0, 1, 0, 0⟩, .zero] := by
    decide +kernel
  obtain ⟨s, reached, filters⟩ := Option.map_eq_some_iff.mp finished
  exact ⟨s, reached, filters,
    foreground_filter_of_line .prologue flaggedThenPlain s reached⟩

end Session

end StraceXv6.User.Shell
