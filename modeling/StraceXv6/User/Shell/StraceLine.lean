import StraceXv6.User.Shell.Main
import StraceXv6.User.Shell.Words

namespace StraceXv6.User.Shell

open List Data
open Kernel

/-! Lines that trace one command: `strace`, what to trace, and the command. -/

def layOut (words gaps : List (List UInt8)) : List UInt8 :=
  (List.zipWith (· ++ ·) words gaps).flatten

def totalLength (texts : List (List UInt8)) : Nat := (texts.map List.length).sum

variable {gaps words : List (List UInt8)}

theorem length_layOut (same : words.length = gaps.length) :
    (layOut words gaps).length = totalLength words + totalLength gaps := by
  induction words generalizing gaps with
  | nil =>
    rw [length_eq_zero_iff.mp same.symm]
    rfl
  | cons word words induction =>
    cases gaps with
    | nil => cases same
    | cons gap gaps =>
      have rest := induction (Nat.succ.inj same)
      simp only [layOut, totalLength, zipWith_cons_cons, flatten_cons,
        length_append, map_cons, sum_cons] at rest ⊢
      omega

theorem renders_layOut {rest : List UInt8} {more : List (List UInt8)}
    (same : words.length = gaps.length) (isWord : ∀ word ∈ words, IsWord word)
    (isGap : ∀ gap ∈ gaps, IsGap gap ∧ gap ≠ []) (renders : Renders rest more) :
    Renders (layOut words gaps ++ rest) (words ++ more) := by
  induction words generalizing gaps with
  | nil =>
    rw [length_eq_zero_iff.mp same.symm]
    exact renders
  | cons word words induction =>
    cases gaps with
    | nil => cases same
    | cons gap gaps =>
      have later := induction (Nat.succ.inj same)
        (fun other member => isWord other (mem_cons_of_mem _ member))
        (fun other member => isGap other (mem_cons_of_mem _ member))
      obtain ⟨blank, nonempty⟩ := isGap gap mem_cons_self
      have whole := Renders.cons (isWord word mem_cons_self) blank
        (fun _ => nonempty) later
      simpa [layOut, append_assoc] using whole

private theorem isWord_drop {word : List UInt8} (isWord : IsWord word) {k : Nat}
    (inside : k < word.length) : IsWord (word.drop k) where
  nonempty := by
    intro empty
    have short := drop_eq_nil_iff.mp empty
    omega
  noNul := fun member => isWord.noNul (mem_of_mem_drop member)
  visible := fun c member => isWord.visible c (mem_of_mem_drop member)
  plain := fun c member => isWord.plain c (mem_of_mem_drop member)

private theorem isGap_drop {gap : List UInt8} (isGap : IsGap gap) (k : Nat) :
    IsGap (gap.drop k) :=
  fun c member => isGap c (mem_of_mem_drop member)

theorem drop_layOut_before {words gaps : List (List UInt8)} {rest : List UInt8}
    {more : List (List UInt8)} (same : words.length = gaps.length)
    (isWord : ∀ word ∈ words, IsWord word)
    (isGap : ∀ gap ∈ gaps, IsGap gap ∧ gap ≠ []) (renders : Renders rest more)
    {k : Nat} (early : k < totalLength words + totalLength gaps.dropLast) :
    ∃ blank body front, (layOut words gaps ++ rest).drop k = blank ++ body ∧
      IsGap blank ∧ Renders body (front ++ more) ∧ front ≠ [] := by
  induction words generalizing gaps k with
  | nil =>
    rw [length_eq_zero_iff.mp same.symm] at early
    cases early
  | cons word words induction =>
    cases gaps with
    | nil => cases same
    | cons gap gaps =>
      have sameRest := Nat.succ.inj same
      have isWordRest := fun other member =>
        isWord other (mem_cons_of_mem word member)
      have isGapRest := fun other member =>
        isGap other (mem_cons_of_mem gap member)
      have later := renders_layOut sameRest isWordRest isGapRest renders
      obtain ⟨blank, nonempty⟩ := isGap gap mem_cons_self
      have shape : layOut (word :: words) (gap :: gaps) ++ rest =
          word ++ (gap ++ (layOut words gaps ++ rest)) := by
        simp [layOut, append_assoc]
      rw [shape]
      by_cases inWord : k < word.length
      · refine ⟨[], word.drop k ++ gap ++ (layOut words gaps ++ rest),
          word.drop k :: words, ?_, nofun, ?_, cons_ne_nil _ _⟩
        · rw [drop_append_of_le_length inWord.le]
          simp [append_assoc]
        · exact .cons (isWord_drop (isWord word mem_cons_self) inWord) blank
            (fun _ => nonempty) later
      · obtain ⟨j, rfl⟩ := Nat.exists_eq_add_of_le (Nat.le_of_not_lt inWord)
        rw [drop_length_add_append]
        cases gaps with
        | nil =>
          rw [length_eq_zero_iff.mp sameRest] at early
          simp [totalLength] at early
        | cons nextGap gaps =>
          by_cases inGap : j < gap.length
          · refine ⟨gap.drop j, layOut words (nextGap :: gaps) ++ rest, words, ?_,
              isGap_drop blank j, later, ?_⟩
            · rw [drop_append_of_le_length inGap.le]
            · exact ne_nil_of_length_eq_add_one sameRest
          · obtain ⟨i, rfl⟩ := Nat.exists_eq_add_of_le (Nat.le_of_not_lt inGap)
            rw [drop_length_add_append]
            apply induction sameRest isWordRest isGapRest
            simp only [totalLength, map_cons, sum_cons,
              dropLast_cons_of_ne_nil (cons_ne_nil nextGap gaps)] at early ⊢
            omega

theorem drop_layOut_within {words gaps : List (List UInt8)} (rest : List UInt8)
    (same : words.length = gaps.length)
    (isGap : ∀ gap ∈ gaps, IsGap gap ∧ gap ≠ [])
    {k : Nat} (late : totalLength words + totalLength gaps.dropLast ≤ k)
    (within : k ≤ totalLength words + totalLength gaps) :
    ∃ blank, (layOut words gaps ++ rest).drop k = blank ++ rest ∧ IsGap blank := by
  induction words generalizing gaps k with
  | nil =>
    rw [length_eq_zero_iff.mp same.symm] at within ⊢
    rw [Nat.le_zero.mp within]
    exact ⟨[], rfl, nofun⟩
  | cons word words induction =>
    cases gaps with
    | nil => cases same
    | cons gap gaps =>
      have sameRest := Nat.succ.inj same
      have isGapRest := fun other member =>
        isGap other (mem_cons_of_mem gap member)
      have shape : layOut (word :: words) (gap :: gaps) ++ rest =
          word ++ (gap ++ (layOut words gaps ++ rest)) := by
        simp [layOut, append_assoc]
      have pastWord : word.length ≤ k := by
        simp only [totalLength, map_cons, sum_cons] at late
        omega
      rw [shape]
      obtain ⟨j, rfl⟩ := Nat.exists_eq_add_of_le pastWord
      rw [drop_length_add_append]
      cases gaps with
      | nil =>
        have last := length_eq_zero_iff.mp sameRest
        subst last
        have inGap : j ≤ gap.length := by
          simp [totalLength] at within
          exact within
        refine ⟨gap.drop j, ?_, isGap_drop (isGap gap mem_cons_self).1 j⟩
        rw [drop_append_of_le_length inGap]
        rfl
      | cons nextGap gaps =>
        simp only [totalLength, map_cons, sum_cons,
          dropLast_cons_of_ne_nil (cons_ne_nil nextGap gaps)] at late within
        obtain ⟨i, rfl⟩ := Nat.exists_eq_add_of_le
          (by omega : gap.length ≤ j)
        rw [drop_length_add_append]
        apply induction sameRest isGapRest
        · simp only [totalLength]
          omega
        · simp only [totalLength, map_cons, sum_cons]
          omega

inductive Form where
  | run
  | success
  | failure
  | only (name : List UInt8)
  | successOnly (name : List UInt8)
  | failureOnly (name : List UInt8)

namespace Form

def keys : Form → List (List UInt8)
  | .run => [lit "run"]
  | .success => [lit "-s"]
  | .failure => [lit "-f"]
  | .only _ => [lit "-e"]
  | .successOnly _ => [lit "-s", lit "-e"]
  | .failureOnly _ => [lit "-f", lit "-e"]

def names : Form → List (List UInt8)
  | .run | .success | .failure => []
  | .only name | .successOnly name | .failureOnly name => [name]

def options : Form → Options
  | .run => ⟨0, 0, 0, 0, 0⟩
  | .success => ⟨0, 0, 1, 0, 0⟩
  | .failure => ⟨0, 1, 0, 0, 0⟩
  | .only name => ⟨1, 0, 0, 0, foundCall name⟩
  | .successOnly name => ⟨1, 0, 1, 0, foundCall name⟩
  | .failureOnly name => ⟨1, 1, 0, 0, foundCall name⟩

def flag (form : Form) : Flag → Int32 := filterFlag form.options

theorem flag_eq (form : Form) (flag : Flag) :
    form.flag flag = 1 ∧ (∃ word ∈ form.keys, flag.Selects word) ∨
      form.flag flag = 0 ∧ ¬∃ word ∈ form.keys, flag.Selects word := by
  cases flag <;> cases form <;> simp only [Form.flag, filterFlag, options, keys] <;> decide

theorem keys_subset (form : Form) :
    ∀ word ∈ form.keys, word ∈ [lit "run", lit "-s", lit "-f", lit "-e"] := by
  cases form <;> simp [keys]

end Form

/-- A line of the words `strace`, a form and a command, with a gap after each
word in front of the command. -/
structure TracedCommand where
  form : Form
  gaps : List (List UInt8)
  command : List UInt8
  words : List (List UInt8)
  named : ∀ name ∈ form.names, IsWord name
  aligned : gaps.length = form.keys.length + form.names.length + 1
  blank : ∀ gap ∈ gaps, IsGap gap ∧ gap ≠ []
  renders : Renders command words
  nonempty : words ≠ []
  fits : (layOut (lit "strace" :: (form.keys ++ form.names)) gaps ++ command).length < 100

namespace TracedCommand

variable (c : TracedCommand)

def heads : List (List UInt8) := lit "strace" :: (c.form.keys ++ c.form.names)

def bytes : List UInt8 := layOut c.heads c.gaps ++ c.command

/-- The line runs the command as parsed alone, under the filter of its form. -/
def RunsAlone (image : Image) (tracing : Int32) (before : Options) : Prop :=
  let reaction := readLine image c.bytes { Globals.start with tracing := tracing } before
  ∃ cmd, parsecmd c.command = .ok cmd ∧ reaction.action = .replaced cmd ∧
    reaction.options = c.form.options

/-- The gaps in front of the last hold at most one blank more than one each. -/
def Spaced : Prop := totalLength c.gaps.dropLast ≤ c.gaps.length

/-- Neither the name nor the command holds an option that the form does not. -/
def Unambiguous : Prop :=
  ∀ word ∈ c.form.names ++ c.words, ∀ flag : Flag,
    flag.Selects word → c.form.flag flag ≠ 0

def Short : Prop := c.heads.length + c.words.length < maxargs

theorem isWord_heads : ∀ word ∈ c.heads, IsWord word := by
  intro word member
  rcases mem_cons.mp member with same | later
  · subst same
    decide
  · rcases mem_append.mp later with key | name
    · have checked : ∀ word ∈ [lit "run", lit "-s", lit "-f", lit "-e"], IsWord word := by
        decide
      exact checked word (c.form.keys_subset word key)
    · exact c.named word name

theorem length_heads : c.heads.length = c.gaps.length := by
  simp only [heads, length_cons, length_append]
  exact c.aligned.symm

theorem renders_bytes : Renders c.bytes (c.heads ++ c.words) :=
  renders_layOut c.length_heads c.isWord_heads c.blank c.renders

theorem scanned_eq_iff (tracing : Int32) :
    (∀ flag, (scanFlags { Globals.start with tracing := tracing }
      (c.heads ++ c.words)).flag flag = c.form.flag flag) ↔ c.Unambiguous := by
  have scanned : ∀ flag, (scanFlags { Globals.start with tracing := tracing }
      (c.heads ++ c.words)).flag flag =
        if ∃ word ∈ c.form.keys ++ (c.form.names ++ c.words), flag.Selects word then 1
        else 0 := by
    intro flag
    rw [scanFlags, heads, cons_append, tail_cons, flag_foldl_scanWord,
      append_assoc]
    cases flag <;> rfl
  constructor
  · intro equal word member flag selects zero
    have one := scanned flag
    rw [equal flag, zero, if_pos ⟨word, mem_append_right _ member, selects⟩] at one
    contradiction
  · intro unambiguous flag
    rw [scanned flag]
    rcases c.form.flag_eq flag with ⟨one, word, member, selects⟩ | ⟨zero, none⟩
    · rw [one, if_pos ⟨word, mem_append_left _ member, selects⟩]
    · rw [zero, if_neg]
      rintro ⟨word, member, selects⟩
      rcases mem_append.mp member with key | other
      · exact none ⟨word, key, selects⟩
      · exact unambiguous word other flag selects zero

theorem not_isCd : ¬IsCd c.bytes := by
  rintro ⟨rest, equal⟩
  cases spaces : c.gaps with
  | nil =>
    have aligned := c.aligned
    rw [spaces] at aligned
    cases aligned
  | cons gap gaps =>
    rw [bytes, heads, spaces] at equal
    simp only [layOut, zipWith_cons_cons, flatten_cons,
      append_assoc] at equal
    have first : (lit "cd ").head? = (lit "strace").head? := by
      have heads := congrArg List.head? equal
      exact heads
    cases first

theorem readLine_bytes (image : Image) (globals : Globals) (before : Options) :
    readLine image c.bytes globals before =
      if c.heads.length + c.words.length < maxargs then
        straceLine image c.bytes globals .zero (c.heads ++ c.words)
      else ⟨globals, .zero, .exited⟩ := by
  have parsed := @parsecmd_of_renders c.bytes [] c.bytes _ rfl nofun c.renders_bytes
  rw [length_append] at parsed
  rw [readLine, if_neg c.not_isCd]
  by_cases few : c.heads.length + c.words.length < maxargs
  · have called : streq (argv0 image (.exec (c.heads ++ c.words))) (lit "strace") = true := by
      change streq (lit "strace") (lit "strace") = true
      decide
    rw [if_pos few] at parsed
    simp only [parsed, if_pos few, if_pos called]
    rfl
  · rw [if_neg few] at parsed
    simp only [parsed, if_neg few]
    rfl

private theorem wordsLength_append (image : Image) (front back : List (List UInt8)) :
    wordsLength image (front ++ back) front.length =
      totalLength front + front.length := by
  rw [wordsLength, totalLength]
  congr 2
  apply ext_getElem
  · simp
  · intro i below inside
    have bound : i < front.length := by simpa using inside
    simp [List.getElem?_append_left bound, bound]

/-- With the flags of its form, the line runs what stands after as many words
and separators as the form has. -/
theorem straceLine_of_flags (image : Image) (line : List UInt8) (tracing : Int32)
    (flags : ∀ flag, (scanFlags { Globals.start with tracing := tracing }
      (c.heads ++ c.words)).flag flag = c.form.flag flag) :
    straceLine image line { Globals.start with tracing := tracing } .zero
        (c.heads ++ c.words) =
      runFrom image line
        (scanFlags { Globals.start with tracing := tracing } (c.heads ++ c.words))
        c.form.options (totalLength c.heads + c.heads.length) := by
  have e := flags .e
  have f := flags .f
  have s := flags .s
  have o := flags .o
  simp only [Globals.flag, Form.flag, filterFlag] at e f s o
  rw [← wordsLength_append image c.heads c.words]
  simp only [straceLine, e, f, s, o]
  cases shape : c.form with
  | run =>
    have count : c.heads.length = 2 := by rw [heads, shape]; rfl
    have called : streq ((c.heads ++ c.words).getD 1 image.text0) (lit "run") = true := by
      rw [heads, shape]
      change streq (lit "run") (lit "run") = true
      decide
    simp only [Form.options, count, called]
    rfl
  | success | failure =>
    have count : c.heads.length = 2 := by rw [heads, shape]; rfl
    simp only [Form.options, count]
    rfl
  | only name =>
    have count : c.heads.length = 3 := by rw [heads, shape]; rfl
    have third : (c.heads ++ c.words).getD 2 image.text0 = name := by
      rw [heads, shape]
      rfl
    simp only [Form.options, count, third]
    rfl
  | successOnly name | failureOnly name =>
    have count : c.heads.length = 4 := by rw [heads, shape]; rfl
    have fourth : (c.heads ++ c.words).getD 3 image.text0 = name := by
      rw [heads, shape]
      rfl
    simp only [Form.options, count, fourth]
    rfl

theorem bufferText_bytes (image : Image) {ps : Nat} (inside : ps ≤ c.bytes.length) :
    bufferText image c.bytes ps = c.bytes.drop ps := by
  have room : ∃ spare, 100 - c.bytes.length = spare + 1 :=
    ⟨100 - c.bytes.length - 1, by
      have fits : c.bytes.length < 100 := c.fits
      omega⟩
  obtain ⟨spare, count⟩ := room
  have noNul : (0 : UInt8) ∉ c.bytes.drop ps := fun member =>
    c.renders_bytes.noNul (mem_of_mem_drop member)
  rw [bufferText, count, append_assoc, drop_append_of_le_length inside,
    replicate_succ, cons_append]
  exact cstr_append_nul noNul _

theorem gaps_le_totalLength : c.gaps.length ≤ totalLength c.gaps := by
  have widths : ∀ gaps : List (List UInt8), (∀ gap ∈ gaps, gap ≠ []) →
      gaps.length ≤ totalLength gaps := by
    intro gaps
    induction gaps with
    | nil => exact fun _ => Nat.le_refl 0
    | cons gap gaps induction =>
      intro nonempty
      have wide := length_pos_iff.mpr (nonempty gap mem_cons_self)
      have rest := induction fun other member =>
        nonempty other (mem_cons_of_mem _ member)
      simp only [totalLength, length_cons, map_cons, sum_cons] at rest ⊢
      omega
  exact widths c.gaps fun gap member => (c.blank gap member).2

theorem parsecmd_command (short : c.Short) :
    parsecmd c.command = .ok (.exec c.words) := by
  have few : c.words.length < maxargs := by
    unfold Short at short
    omega
  rw [@parsecmd_of_renders c.command [] c.command c.words rfl nofun c.renders, if_pos few]

theorem runFrom_action_iff (image : Image) (globals : Globals) (options : Options)
    (short : c.Short) :
    (runFrom image c.bytes globals options
        (totalLength c.heads + c.heads.length)).action = .replaced (.exec c.words) ↔
      c.Spaced := by
  have same := c.length_heads
  have wide := c.gaps_le_totalLength
  have total : c.bytes.length =
      totalLength c.heads + totalLength c.gaps + c.command.length := by
    rw [bytes, length_append, length_layOut same]
  have text := c.bufferText_bytes image
    (by omega : totalLength c.heads + c.heads.length ≤ c.bytes.length)
  rw [runFrom, text]
  constructor
  · intro runs
    by_contra crowded
    unfold Spaced at crowded
    obtain ⟨blank, body, front, shape, isGap, renders, nonempty⟩ :=
      @drop_layOut_before c.heads c.gaps c.command c.words same c.isWord_heads c.blank
        c.renders (totalLength c.heads + c.heads.length) (by omega)
    rw [show c.bytes.drop _ = blank ++ body from shape,
      @parsecmd_of_renders (blank ++ body) blank body _ rfl isGap renders] at runs
    by_cases few : (front ++ c.words).length < maxargs
    · rw [if_pos few] at runs
      simp only [Action.replaced.injEq, Cmd.exec.injEq] at runs
      exact nonempty (append_left_eq_self.mp runs)
    · rw [if_neg few] at runs
      cases runs
  · intro spaced
    unfold Spaced at spaced
    obtain ⟨blank, shape, isGap⟩ := @drop_layOut_within c.heads c.gaps c.command same
      c.blank (totalLength c.heads + c.heads.length) (by omega) (by omega)
    have few : c.words.length < maxargs := by
      unfold Short at short
      omega
    rw [show c.bytes.drop _ = blank ++ c.command from shape,
      @parsecmd_of_renders (blank ++ c.command) blank c.command _ rfl isGap c.renders,
      if_pos few]

/-- The command is run as parsed alone and under the filter of its form exactly
for lines of few words, narrow gaps and no stray options. -/
theorem runsAlone_iff (image : Image) (tracing : Int32) (before : Options) :
    c.RunsAlone image tracing before ↔ c.Short ∧ c.Spaced ∧ c.Unambiguous := by
  unfold RunsAlone
  simp only [c.readLine_bytes image]
  constructor
  · rintro ⟨cmd, parsed, action, options⟩
    by_cases short : c.heads.length + c.words.length < maxargs
    · rw [if_pos short] at action options
      have flags : ∀ flag, (scanFlags { Globals.start with tracing := tracing }
          (c.heads ++ c.words)).flag flag = c.form.flag flag := by
        intro flag
        rw [← filterFlag_straceLine image c.bytes _ .zero, options]
        rfl
      rw [c.parsecmd_command short] at parsed
      rw [← Except.ok.inj parsed, c.straceLine_of_flags image c.bytes tracing flags,
        c.runFrom_action_iff image _ _ short] at action
      exact ⟨short, action, (c.scanned_eq_iff tracing).mp flags⟩
    · rw [if_neg short] at action
      cases action
  · rintro ⟨short, spaced, unambiguous⟩
    have few : c.heads.length + c.words.length < maxargs := short
    have flags := (c.scanned_eq_iff tracing).mpr unambiguous
    refine ⟨.exec c.words, c.parsecmd_command short, ?_, ?_⟩
    · rw [if_pos few, c.straceLine_of_flags image c.bytes tracing flags]
      exact (c.runFrom_action_iff image _ _ short).mpr spaced
    · rw [if_pos few, c.straceLine_of_flags image c.bytes tracing flags, runFrom_options]

def runLsSorted : TracedCommand where
  form := .run
  gaps := [lit " ", lit " "]
  command := lit "ls -s\n"
  words := [lit "ls", lit "-s"]
  named := nofun
  aligned := rfl
  blank := by decide
  renders := @Renders.cons (lit "ls") (lit " ") _ _ (by decide) (by decide) (by decide)
    (@Renders.cons (lit "-s") (lit "\n") [] [] (by decide) (by decide) nofun .nil)
  nonempty := nofun
  fits := by decide

theorem runLsSorted_not_runsAlone :
    ¬runLsSorted.RunsAlone Image.prologue 0 .zero := by
  rintro ⟨cmd, _, _, options⟩
  exact absurd options (by decide +kernel)

end TracedCommand

end StraceXv6.User.Shell
