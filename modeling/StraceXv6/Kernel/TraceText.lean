import StraceXv6.Kernel.Record

namespace StraceXv6.Kernel

open List Data

/-! The text of an event, as it is printed and as it is stored. -/

def traceLine (pid name sysname ret : List UInt8) : List UInt8 :=
  lit "TRACE: pid = " ++ (pid ++ (lit " | command_name = " ++ (name ++
    (lit " | syscall = " ++ (sysname ++ (lit " | return value: " ++ ret))))))

def printed (target : Proc) (syscallId : Sys) : List UInt8 :=
  cprintf traceFormat [.int target.pid, .str (some target.name.bytes),
    .str (some syscallId.name), .int target.eax.toInt32]

theorem console_print (k : TraceState) (target : Proc) (syscallId : Sys) :
    (k.print target syscallId).console = k.console ++ printed target syscallId := rfl

def fromTrace : List UInt8 → List UInt8
  | [] => []
  | byte :: rest =>
    if (lit "TRACE:").isPrefixOf (byte :: rest) then byte :: rest else fromTrace rest

def upToNewline (text : List UInt8) : List UInt8 := text.takeWhile (· ≠ '\n'.toUInt8)

variable {byte : UInt8} {text name pid ret sysname : List UInt8}

theorem cprintf_cons (plain : byte ≠ '%'.toUInt8) (fmt : List UInt8) (args : List Word) :
    cprintf (byte :: fmt) args = byte :: cprintf fmt args := by
  cases fmt with
  | nil => exact if_neg plain
  | cons next fmt => exact if_pos plain

theorem cprintf_append (plain : '%'.toUInt8 ∉ text) (fmt : List UInt8) (args : List Word) :
    cprintf (text ++ fmt) args = text ++ cprintf fmt args := by
  induction text with
  | nil => rfl
  | cons byte rest induction =>
    rw [cons_append, cprintf_cons (ne_of_not_mem_cons plain).symm,
      induction (not_mem_of_not_mem_cons plain), cons_append]

theorem cprintf_int (fmt : List UInt8) (value : Int32) (args : List Word) :
    cprintf (lit "%d" ++ fmt) (.int value :: args) =
      decimal value.toInt ++ cprintf fmt args := by
  rw [← printint_ten]
  rfl

theorem cprintf_str (fmt text : List UInt8) (args : List Word) :
    cprintf (lit "%s" ++ fmt) (.str (some text) :: args) = text ++ cprintf fmt args := rfl

theorem printed_eq (target : Proc) (syscallId : Sys) :
    printed target syscallId =
      lit "\x1b[1;92m" ++ (traceLine (decimal target.pid.toInt) target.name.bytes syscallId.name
        (decimal target.eax.toInt32.toInt) ++ lit "\n\x1b[0m\n") := by
  have format : traceFormat = lit "\x1b[1;92m" ++ (lit "TRACE: pid = " ++ (lit "%d" ++
      (lit " | command_name = " ++ (lit "%s" ++ (lit " | syscall = " ++ (lit "%s" ++
        (lit " | return value: " ++ (lit "%d" ++ (lit "\n\x1b[0m\n" ++ []))))))))) := by decide
  rw [printed, format, cprintf_append (by decide), cprintf_append (by decide), cprintf_int,
    cprintf_append (by decide), cprintf_str, cprintf_append (by decide), cprintf_str,
    cprintf_append (by decide), cprintf_int, cprintf_append (by decide), cprintf]
  simp only [traceLine, append_assoc, append_nil]

theorem message_eq_traceLine (target : Proc) (syscallId : Sys) :
    message target syscallId = traceLine (itoa target.pid 10) target.name.bytes syscallId.name
      (itoa target.eax.toInt32 10) := by
  rw [message_eq]
  simp only [traceLine, append_assoc]

theorem fromTrace_escape (rest : List UInt8) :
    fromTrace (lit "\x1b[1;92m" ++ (lit "TRACE: pid = " ++ rest)) = lit "TRACE: pid = " ++ rest := by
  rfl

theorem traceLine_inj {pid' name' sysname' ret' : List UInt8}
    (pids : ' '.toUInt8 ∉ pid ∧ ' '.toUInt8 ∉ pid')
    (sysnames : ' '.toUInt8 ∉ sysname ∧ ' '.toUInt8 ∉ sysname')
    (rets : ' '.toUInt8 ∉ ret ∧ ' '.toUInt8 ∉ ret')
    (same : traceLine pid name sysname ret = traceLine pid' name' sysname' ret') :
    pid = pid' ∧ name = name' ∧ sysname = sysname' ∧ ret = ret' := by
  have command : lit " | command_name = " = ' '.toUInt8 :: lit "| command_name = " := by decide
  have shape : ∀ name sysname ret : List UInt8,
      name ++ (lit " | syscall = " ++ (sysname ++ (lit " | return value: " ++ ret))) =
        name ++ lit " | syscall =" ++ ' '.toUInt8 :: sysname ++ lit " | return value:" ++
          ' '.toUInt8 :: ret := by
    intro name sysname ret
    have syscall : lit " | syscall = " = lit " | syscall =" ++ [' '.toUInt8] := by decide
    have value : lit " | return value: " = lit " | return value:" ++ [' '.toUInt8] := by decide
    simp only [syscall, value, append_assoc, cons_append, nil_append]
  simp only [traceLine, command] at same
  obtain ⟨samePid, rest⟩ := field_inj pids.1 pids.2 (append_cancel_left same)
  have fields := append_cancel_left rest
  rw [shape, shape] at fields
  obtain ⟨fields, sameRet⟩ := field_inj_right rets.1 rets.2 fields
  obtain ⟨fields, sameSysname⟩ := field_inj_right sysnames.1 sysnames.2
    (append_cancel_right fields)
  exact ⟨samePid, append_cancel_right fields, sameSysname, sameRet⟩

theorem noSpace_decimal (n : Int) : ' '.toUInt8 ∉ decimal n := by
  intro member
  rcases toNat_of_mem_decimal member with sign | digit
  · cases sign
  · exact absurd digit.1 (by decide)

theorem noSpace_itoa (num : Int32) : ' '.toUInt8 ∉ itoa num 10 := by
  by_cases least : num = Int32.minValue
  · rw [least, itoa_ten_minValue]
    decide
  · rw [itoa_ten least]
    exact noSpace_decimal _

theorem noSpace_name (syscallId : Sys) : ' '.toUInt8 ∉ syscallId.name := by
  cases syscallId <;> decide

theorem itoa_minValue_ne_decimal (n : Int) : itoa Int32.minValue 10 ≠ decimal n := by
  intro same
  have member : '.'.toUInt8 ∈ decimal n := by
    rw [← same, itoa_ten_minValue]
    decide
  rcases toNat_of_mem_decimal member with sign | digit
  · cases sign
  · exact absurd digit.1 (by decide)

theorem itoa_eq_decimal_iff (num : Int32) :
    itoa num 10 = decimal num.toInt ↔ num ≠ Int32.minValue := by
  refine ⟨?_, itoa_ten⟩
  rintro same rfl
  exact itoa_minValue_ne_decimal _ same

theorem itoa_injective : Function.Injective (itoa · 10) := by
  intro num num' same
  change itoa num 10 = itoa num' 10 at same
  by_cases least : num = Int32.minValue
  · by_cases least' : num' = Int32.minValue
    · rw [least, least']
    · rw [least, itoa_ten least'] at same
      exact absurd same (itoa_minValue_ne_decimal _)
  · by_cases least' : num' = Int32.minValue
    · rw [least', itoa_ten least] at same
      exact absurd same.symm (itoa_minValue_ne_decimal _)
    · rw [itoa_ten least, itoa_ten least'] at same
      exact Int32.toInt_inj.mp (decimal_injective same)

/-- A message fits its buffers, and tells the process, its name, the call and the result. -/
theorem message_unambiguous (target target' : Proc) (syscallId syscallId' : Sys) :
    (message target syscallId).length < 1000 ∧
      (message target syscallId = message target' syscallId' ↔
        target.pid = target'.pid ∧ target.name = target'.name ∧ syscallId = syscallId' ∧
          target.eax = target'.eax) := by
  refine ⟨length_message_lt target syscallId, ?_⟩
  rw [message_eq_traceLine, message_eq_traceLine]
  constructor
  · intro same
    obtain ⟨pids, names, sysnames, rets⟩ := traceLine_inj ⟨noSpace_itoa _, noSpace_itoa _⟩
      ⟨noSpace_name _, noSpace_name _⟩ ⟨noSpace_itoa _, noSpace_itoa _⟩ same
    refine ⟨itoa_injective pids, ?_, Sys.name_injective sysnames, ?_⟩
    · cases first : target.name
      cases second : target'.name
      rw [first, second] at names
      exact ProcName.mk.injEq .. ▸ names
    · exact congrArg Int32.toUInt32 (itoa_injective rets)
  · rintro ⟨pids, names, rfl, rets⟩
    rw [pids, names, rets]

theorem noNewline_decimal (n : Int) : '\n'.toUInt8 ∉ decimal n := by
  intro member
  rcases toNat_of_mem_decimal member with sign | digit
  · cases sign
  · exact absurd digit.1 (by decide)

theorem not_mem_upToNewline (text : List UInt8) : '\n'.toUInt8 ∉ upToNewline text := by
  intro member
  simpa using mem_takeWhile_imp member

theorem upToNewline_append (single : '\n'.toUInt8 ∉ text) (rest : List UInt8) :
    upToNewline (text ++ '\n'.toUInt8 :: rest) = text := by
  have plain : ∀ byte ∈ text, decide (byte ≠ '\n'.toUInt8) = true := fun byte member =>
    decide_eq_true fun newline => single (newline ▸ member)
  rw [upToNewline, takeWhile_append_of_pos plain, takeWhile_cons_of_neg (by decide),
    append_nil]

theorem noNewline_name (syscallId : Sys) : '\n'.toUInt8 ∉ syscallId.name := by
  cases syscallId <;> decide

theorem noNewline_traceLine (pids : '\n'.toUInt8 ∉ pid) (names : '\n'.toUInt8 ∉ name)
    (sysnames : '\n'.toUInt8 ∉ sysname) (rets : '\n'.toUInt8 ∉ ret) :
    '\n'.toUInt8 ∉ traceLine pid name sysname ret := by
  simp only [traceLine, mem_append, not_or]
  exact ⟨by decide, pids, by decide, names, by decide, sysnames, by decide, rets⟩

theorem mem_traceLine (member : byte ∈ name) (pid sysname ret : List UInt8) :
    byte ∈ traceLine pid name sysname ret := by
  simp only [traceLine, mem_append]
  exact .inr (.inr (.inr (.inl member)))

theorem fromTrace_printed (target : Proc) (syscallId : Sys) :
    fromTrace (printed target syscallId) =
      traceLine (decimal target.pid.toInt) target.name.bytes syscallId.name
        (decimal target.eax.toInt32.toInt) ++ lit "\n\x1b[0m\n" := by
  rw [printed_eq]
  simp only [traceLine, append_assoc]
  exact fromTrace_escape _

/-- The line on the console is the message, unless a number is the least one or the name has a
newline in it. -/
theorem printed_eq_message_iff (target : Proc) (syscallId : Sys) :
    upToNewline (fromTrace (printed target syscallId)) = message target syscallId ↔
      target.pid ≠ Int32.minValue ∧ target.eax.toInt32 ≠ Int32.minValue ∧
        '\n'.toUInt8 ∉ target.name.bytes := by
  rw [fromTrace_printed, message_eq_traceLine]
  by_cases newline : '\n'.toUInt8 ∈ target.name.bytes
  · -- The message keeps the newline, at which the printed line ends.
    refine ⟨fun same => ?_, fun holds => absurd newline holds.2.2⟩
    exact absurd (same ▸ mem_traceLine newline _ _ _) (not_mem_upToNewline _)
  · have single := noNewline_traceLine (noNewline_decimal target.pid.toInt) newline
      (noNewline_name syscallId) (noNewline_decimal target.eax.toInt32.toInt)
    have line := upToNewline_append single (lit "\x1b[0m\n")
    change upToNewline (_ ++ lit "\n\x1b[0m\n") = _ at line
    rw [line]
    constructor
    · intro same
      obtain ⟨pids, -, -, rets⟩ := traceLine_inj ⟨noSpace_decimal _, noSpace_itoa _⟩
        ⟨noSpace_name _, noSpace_name _⟩ ⟨noSpace_decimal _, noSpace_itoa _⟩ same
      exact ⟨(itoa_eq_decimal_iff _).mp pids.symm, (itoa_eq_decimal_iff _).mp rets.symm, newline⟩
    · rintro ⟨pid, ret, -⟩
      rw [itoa_ten pid, itoa_ten ret]

/-- A call that returns the least number is printed with it, and stored with characters around
the digits' own. -/
theorem printed_differs_at_least :
    let target := { Proc.ls with eax := 0x80000000 }
    fromTrace (printed target .uptime) =
        lit "TRACE: pid = 3 | command_name = ls | syscall = uptime | return value: " ++
          lit "-2147483648\n\x1b[0m\n" ∧
      message target .uptime =
        lit "TRACE: pid = 3 | command_name = ls | syscall = uptime | return value: " ++
          lit "-./,),(-*,(" ∧
      upToNewline (fromTrace (printed target .uptime)) ≠ message target .uptime := by
  intro target
  have printedText : fromTrace (printed target .uptime) =
      lit "TRACE: pid = 3 | command_name = ls | syscall = uptime | return value: " ++
        lit "-2147483648\n\x1b[0m\n" := by
    have pid : decimal target.pid.toInt = lit "3" := by decide
    have ret : decimal target.eax.toInt32.toInt = lit "-2147483648" := by
      rw [← printint_ten]
      decide
    rw [fromTrace_printed, pid, ret]
    decide
  have storedText : message target .uptime =
      lit "TRACE: pid = 3 | command_name = ls | syscall = uptime | return value: " ++
        lit "-./,),(-*,(" := by
    have pid : itoa target.pid 10 = lit "3" := by decide
    have ret : itoa target.eax.toInt32 10 = lit "-./,),(-*,(" := itoa_ten_minValue
    rw [message_eq_traceLine, pid, ret]
    decide
  refine ⟨printedText, storedText, ?_⟩
  rw [printedText, storedText]
  decide

end StraceXv6.Kernel
