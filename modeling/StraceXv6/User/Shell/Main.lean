import StraceXv6.User.CallTable
import StraceXv6.User.Shell.Parser

namespace StraceXv6.User.Shell

open Data
open Kernel

/-! The body of the shell's main loop: what one line does to the shell, to the
kernel's filter, and what is run for it. -/

/-- A line as `getcmd` leaves it in `buf[100]`. -/
structure Line where
  bytes : List UInt8
  nonempty : bytes ≠ []
  noNul : (0 : UInt8) ∉ bytes
  fits : bytes.length < 100

def Line.ls : Line := ⟨lit "ls\n", by decide, by decide, by decide⟩

/-- What the loaded program holds where the shell reads through a null pointer
and past the end of `buf`.  Address 0 is program text. -/
structure Image where
  text0 : List UInt8
  afterBuf : List UInt8
  notStrace : ¬lit "strace" <+: text0
  notRun : ¬lit "run" <+: text0

def Image.prologue : Image := ⟨[0x55, 0x89, 0xe5], [], by decide, by decide⟩

structure Globals where
  tracing : Int32
  flagE : Int32
  flagF : Int32
  flagS : Int32
  flagO : Int32
  deriving DecidableEq

def Globals.start : Globals := ⟨0, 0, 0, 0, 0⟩

/-- What becomes of the shell after a line: back to the prompt, a child runs the
command and the shell waits for it, the shell itself becomes the command, or the
shell exits. -/
inductive Action where
  | prompt
  | forked (cmd : Cmd (List UInt8))
  | replaced (cmd : Cmd (List UInt8))
  | exited
  deriving DecidableEq

structure Reaction where
  globals : Globals
  options : Options
  action : Action
  deriving DecidableEq

def Cmd.typeCode {α : Type} : Cmd α → UInt8
  | .exec _ => 1
  | .redir .. => 2
  | .pipe .. => 3
  | .list .. => 4
  | .back _ => 5

/-- The string at `((struct execcmd *)cmd)->argv[0]`; in the other nodes the
pointer there leads to a command, which starts with its type. -/
def argv0 (image : Image) : Cmd (List UInt8) → List UInt8
  | .exec argv => argv.headD image.text0
  | .redir cmd _ _ _ | .back cmd => [cmd.typeCode]
  | .pipe left _ | .list left _ => [left.typeCode]

def Cmd.argv {α : Type} : Cmd α → List α
  | .exec argv => argv
  | _ => []

inductive Flag where
  | e | f | s | o

def Flag.Selects : Flag → List UInt8 → Prop
  | .e, word => word = lit "-e" ∨ word = lit "-E"
  | .f, word => word = lit "-f" ∨ word = lit "-F"
  | .s, word => word = lit "-s" ∨ word = lit "-S"
  | .o, word => word = lit "-o" ∨ word = lit "-O"

instance : (flag : Flag) → (word : List UInt8) → Decidable (flag.Selects word)
  | .e, _ | .f, _ | .s, _ | .o, _ => inferInstanceAs (Decidable (_ ∨ _))

def Globals.flag (globals : Globals) : Flag → Int32
  | .e => globals.flagE
  | .f => globals.flagF
  | .s => globals.flagS
  | .o => globals.flagO

def scanWord (globals : Globals) (word : List UInt8) : Globals :=
  let globals :=
    if Flag.f.Selects word then { globals with flagF := 1 }
    else if Flag.e.Selects word then { globals with flagE := 1 }
    else if Flag.s.Selects word then { globals with flagS := 1 }
    else globals
  if Flag.o.Selects word then { globals with flagO := 1 } else globals

def scanFlags (globals : Globals) (argv : List (List UInt8)) : Globals :=
  argv.tail.foldl scanWord globals

section

variable (image : Image) (line : List UInt8)

def bufferText (ps : Nat) : List UInt8 :=
  cstr ((line ++ List.replicate (100 - line.length) 0 ++ image.afterBuf).drop ps)

/-- `tracing = 1; runcmd(parsecmd(ps));` -/
def runFrom (globals : Globals) (options : Options) (ps : Nat) : Reaction :=
  match parsecmd (bufferText image line ps) with
  | .ok cmd => ⟨{ globals with tracing := 1 }, options, .replaced cmd⟩
  | .error _ => ⟨{ globals with tracing := 1 }, options, .exited⟩

def wordsLength (argv : List (List UInt8)) (count : Nat) : Nat :=
  ((List.range count).map fun i => (argv.getD i image.text0).length).sum + count

def straceLine (globals : Globals) (options : Options) (argv : List (List UInt8)) :
    Reaction :=
  let globals := scanFlags globals argv
  let options := setOptions options globals.flagE globals.flagF globals.flagS globals.flagO
  if globals.flagO ≠ 0 then ⟨globals, options, .exited⟩
  else if globals.flagF ≠ 0 ∨ globals.flagE ≠ 0 ∨ globals.flagS ≠ 0 then
    if globals.flagS ≠ 0 ∨ globals.flagF ≠ 0 then
      if globals.flagE ≠ 0 then
        runFrom image line globals
          (setCallFlag options (foundCall (argv.getD 3 image.text0)))
          (wordsLength image argv 4)
      else runFrom image line globals options (wordsLength image argv 2)
    else
      runFrom image line globals
        (setCallFlag options (foundCall (argv.getD 2 image.text0)))
        (wordsLength image argv 3)
  else if streq (argv.getD 1 image.text0) (lit "run") then
    runFrom image line globals options (wordsLength image argv 2)
  else if argv.length ≤ 1 ∨ streq (argv.getD 1 image.text0) (lit "on") then
    ⟨{ globals with tracing := 1 }, options, .prompt⟩
  else if streq (argv.getD 1 image.text0) (lit "off") then
    ⟨{ globals with tracing := 0 }, options, .prompt⟩
  else if streq (argv.getD 1 image.text0) (lit "dump") then
    ⟨globals, options, .prompt⟩
  else ⟨globals, options, .forked (.exec argv)⟩

def IsCd : Prop := lit "cd " <+: line

instance : Decidable (IsCd line) := inferInstanceAs (Decidable (_ <+: _))

def readLine (globals : Globals) (options : Options) : Reaction :=
  if IsCd line then ⟨globals, options, .prompt⟩
  else
    let options := setCallFlag (setOptions options 0 0 0 0) 0
    match parsecmd line with
    | .error _ => ⟨globals, options, .exited⟩
    | .ok cmd =>
      if streq (argv0 image cmd) (lit "strace") then
        straceLine image line globals options cmd.argv
      else ⟨globals, options, .forked cmd⟩

end

structure Launch where
  argv : List (List UInt8)
  traced : Bool
  deriving DecidableEq

/-- The programs `runcmd` hands to `exec`, with every `open`, `pipe` and `fork`
succeeding. -/
def runcmd (tracing : Int32) : Cmd (List UInt8) → List Launch
  | .exec argv => if argv = [] then [] else [⟨argv, tracing ≠ 0⟩]
  | .redir cmd _ _ _ => runcmd tracing cmd
  | .pipe left right => runcmd tracing left ++ runcmd tracing right
  | .list left right => runcmd tracing left ++ runcmd tracing right
  | .back cmd => runcmd tracing cmd

theorem flag_scanWord (globals : Globals) (word : List UInt8) (flag : Flag) :
    (scanWord globals word).flag flag =
      if flag.Selects word then 1 else globals.flag flag := by
  have exclusive :
      (Flag.f.Selects word → ¬Flag.e.Selects word ∧ ¬Flag.s.Selects word) ∧
        (Flag.e.Selects word → ¬Flag.s.Selects word) := by
    constructor
    · rintro (rfl | rfl) <;> decide
    · rintro (rfl | rfl) <;> decide
  simp only [scanWord]
  by_cases f : Flag.f.Selects word
  · obtain ⟨notE, notS⟩ := exclusive.1 f
    rw [if_pos f]
    cases flag <;> split <;> simp_all [Globals.flag]
  · by_cases e : Flag.e.Selects word
    · have notS := exclusive.2 e
      rw [if_neg f, if_pos e]
      cases flag <;> split <;> simp_all [Globals.flag]
    · rw [if_neg f, if_neg e]
      cases flag <;> split <;> split <;> simp_all [Globals.flag]

theorem flag_foldl_scanWord (words : List (List UInt8)) (globals : Globals)
    (flag : Flag) :
    (words.foldl scanWord globals).flag flag =
      if ∃ word ∈ words, flag.Selects word then 1 else globals.flag flag := by
  induction words generalizing globals with
  | nil => simp
  | cons word words induction =>
    rw [List.foldl_cons, induction, flag_scanWord]
    by_cases here : flag.Selects word
    · simp [here]
    · simp [here]

def filterFlag (options : Options) : Flag → Int32
  | .e => options.flagE
  | .f => options.flagF
  | .s => options.flagS
  | .o => options.flagO

theorem runFrom_options (image : Image) (line : List UInt8) (globals : Globals)
    (options : Options) (ps : Nat) :
    (runFrom image line globals options ps).options = options := by
  unfold runFrom
  split <;> rfl

theorem filterFlag_straceLine (image : Image) (line : List UInt8) (globals : Globals)
    (options : Options) (argv : List (List UInt8)) (flag : Flag) :
    filterFlag (straceLine image line globals options argv).options flag =
      (scanFlags globals argv).flag flag := by
  simp only [straceLine]
  split
  next => cases flag <;> rfl
  next =>
    split
    next =>
      split
      next =>
        split <;> rw [runFrom_options] <;> cases flag <;> rfl
      next => rw [runFrom_options]; cases flag <;> rfl
    next =>
      split
      next => rw [runFrom_options]; cases flag <;> rfl
      next => split <;> [skip; split <;> [skip; split]] <;> cases flag <;> rfl

end StraceXv6.User.Shell
