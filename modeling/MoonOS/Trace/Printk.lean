import MoonOS.Abi.Syscalls
import MoonOS.Trace.Sym

/-!
# Trace/Printk — the kernel's log, `printk.c`, `panic.c` and `libs/moon-io/sources/serial.c`

    sys_log ──▸ printk ──"[core#%d] %s: %s"──▸ tty_write
    __panic ──▸ tty_write, printk, debug

Each of these formats into a buffer of 512 bytes, and gives the formatter `(size_t)-1` for its size.
A call appears here as the bytes it has written to each buffer on the way.

* `logFits_iff` — so nothing but the texts themselves keeps a call in its buffers: every text along
  the chain has to have at most 511 characters.  A string that `sys_log` accepts can have more.
-/

namespace MoonOS

open ByteMemory

/-! ## `serial.c` -/

/-- `impl_verbose_debug`. -/
def implVerboseDebug (line : BitVec 32) (text : List (BitVec 8)) : List LogWrite :=
  [formatInto .serialBuff text, formatInto .lineBuff (formatInt line)]

/-- `impl_quiet_debug`. -/
def implQuietDebug (text : List (BitVec 8)) : List LogWrite := [formatInto .serialQBuff text]

/-! ## `panic.c` -/

/-- `"%llx - %s\n"` of a symbol. -/
def symbolLine (sym : Symbol) : List (BitVec 8) :=
  formatHex sym.addr ++ ascii " - " ++ ascii sym.name ++ ascii "\n"

/-- `backtrace_symbol`, of a symbol that was looked up. -/
def backtraceSymbol (cpu : BitVec 32) (sym : Symbol) : List LogWrite :=
  printk true cpu (ascii "backtrace") (symbolLine sym) ++ implQuietDebug (symbolLine sym)

/-- The reason of a panic, as it is shown. -/
def reasonLine (buffer : List (BitVec 8)) : List (BitVec 8) :=
  ascii "*** \x1b[97mReason: " ++ formatString buffer ++ ascii "\x1b[39m ***\n"

/-- What is said about the caller's stack frame. -/
def stackdumpText (caller : Symbol) (frameSize : BitVec 64) : List (BitVec 8) :=
  ascii "Dumping " ++ ascii caller.name ++ ascii "'s stackframe\nStackframe size: 0x"
    ++ formatHex (frameSize.setWidth 32) ++ ascii "\n"

/-- A line of the stack frame. -/
def stackLine (m : Mem) (bp : BitVec 64) : List (BitVec 8) :=
  formatHex bp ++ ascii ": " ++ formatPointer (load m bp 8) ++ ascii " "
    ++ formatPointer (load m (at' bp 8) 8) ++ ascii "\n"

/-- `__panic`, with the symbols of the stack trace and that of its second address.  It makes the
boot verbose first. -/
def panic (cpu : BitVec 32) (m : Mem) (bp sp : BitVec 64) (backtrace : List Symbol)
    (caller : Symbol) (text : List (BitVec 8)) : List LogWrite :=
  let write := formatInto .panicBuff text
  [write]
    ++ printk true cpu (ascii "panic") (ascii "\n\x1b[31mA kernel panic has occurred\x1b[39m\n")
    ++ ttyWrite (reasonLine write.bytes)
    ++ implQuietDebug (ascii "A kernel panic has occurred\n" ++ reasonLine write.bytes)
    ++ backtrace.flatMap (backtraceSymbol cpu)
    ++ printk true cpu (ascii "stackdump") (stackdumpText caller (bp - sp))
    ++ ttyWrite (ascii "<addr>\t\t  <stack>\t   <stack+8>\n")
    ++ (List.range (min (bp - sp).toNat 0x18)).flatMap fun i =>
      ttyWrite (stackLine m (at' bp (16 * i)))

/-! ## `sys_log` -/

/-- The text `sys_log` traces, if it accepts the call. -/
def sysLogText (m : Mem) (buff len : BitVec 64) : Option (List (BitVec 8)) :=
  if isUserAddress buff = false then none
  else
    match strlen m buff with
    | none => none
    | some n =>
      if BitVec.ofNat 64 n ≠ len then none
      else some ((List.range n).map fun i => m (at' buff i))

/-- It is what the handler traces. -/
theorem logs_sysLog (buff len : BitVec 64) (k : Kernel) :
    (sysLog buff len k).logs = ((sysLogText k.mem buff len).map traceSyscall).toList := by
  rw [sysLogText, sysLog]
  split
  · rfl
  · cases strlen k.mem buff with
    | none => rfl
    | some n =>
      dsimp only
      split <;> rfl

/-- A string at a user address is accepted with its own length. -/
theorem sysLogText_eq {m : Mem} {buff : BitVec 64} {s : List (BitVec 8)} (h : CString m buff s)
    (huser : isUserAddress buff = true) :
    sysLogText m buff (BitVec.ofNat 64 s.length) = some s := by
  rw [sysLogText, if_neg (by simp [huser]), strlen_eq h]
  dsimp only
  rw [if_neg (not_not_intro rfl), (holds_append.mp h.bytes).1.map_range]

/-! ## Whole calls -/

/-- A call that logs. -/
inductive LogCall
  | ttyWrite (text : List (BitVec 8))
  | printk (status text : List (BitVec 8))
  | verboseDebug (line : BitVec 32) (text : List (BitVec 8))
  | quietDebug (text : List (BitVec 8))
  | panic (m : Mem) (bp sp : BitVec 64) (backtrace : List Symbol) (caller : Symbol)
      (text : List (BitVec 8))
  | sysLog (m : Mem) (buff len : BitVec 64)

section Calls

variable (isVerboseBoot : Bool) (cpu : BitVec 32)

/-- What a call writes. -/
def LogCall.writes : LogCall → List LogWrite
  | .ttyWrite text => MoonOS.ttyWrite text
  | .printk status text => MoonOS.printk isVerboseBoot cpu status text
  | .verboseDebug line text => implVerboseDebug line text
  | .quietDebug text => implQuietDebug text
  | .panic m bp sp backtrace caller text => MoonOS.panic cpu m bp sp backtrace caller text
  | .sysLog m buff len =>
    ((sysLogText m buff len).map (MoonOS.printk isVerboseBoot cpu (ascii "syscall"))).getD []

/-- **A call stays in its buffers** of 512 bytes. -/
def LogCall.Fits (call : LogCall) : Prop := LogFits (call.writes isVerboseBoot cpu)

/-- **The texts of a call have at most 511 characters each.** -/
def LogCall.Short : LogCall → Prop
  | .ttyWrite text => text.length ≤ 511
  | .printk status text => isVerboseBoot = true → PrintkShort cpu status text
  | .verboseDebug _ text => text.length ≤ 511
  | .quietDebug text => text.length ≤ 511
  | .panic _ bp sp backtrace caller text =>
    text.length ≤ 511 ∧ 55 + (formatString text).length ≤ 511
      ∧ (∀ sym ∈ backtrace, PrintkShort cpu (ascii "backtrace") (symbolLine sym))
      ∧ PrintkShort cpu (ascii "stackdump") (stackdumpText caller (bp - sp))
  | .sysLog m buff len => isVerboseBoot = true →
    ∀ text ∈ sysLogText m buff len, PrintkShort cpu (ascii "syscall") text

end Calls

/-! ## What keeps a call in its buffers -/

section Fits

variable {isVerboseBoot : Bool} {cpu : BitVec 32} {status text : List (BitVec 8)}

theorem logFits_flatMap {α : Type} {l : List α} {f : α → List LogWrite} :
    LogFits (l.flatMap f) ↔ ∀ x ∈ l, LogFits (f x) := by
  simp only [LogFits, List.forall_mem_flatMap]

theorem logFits_implQuietDebug : LogFits (implQuietDebug text) ↔ text.length ≤ 511 :=
  logFits_formatInto rfl

theorem logFits_implVerboseDebug (line : BitVec 32) :
    LogFits (implVerboseDebug line text) ↔ text.length ≤ 511 := by
  rw [implVerboseDebug, ← List.singleton_append, logFits_append, logFits_formatInto rfl]
  exact and_iff_left (by simp [LogFits, formatInto, LogBuffer.size])

theorem logFits_backtraceSymbol (sym : Symbol) : LogFits (backtraceSymbol cpu sym)
    ↔ PrintkShort cpu (ascii "backtrace") (symbolLine sym) := by
  rw [backtraceSymbol, logFits_append, logFits_printk, logFits_implQuietDebug, imp_iff_right rfl]
  exact and_iff_left_of_imp fun h => h.1

theorem length_reasonLine (buffer : List (BitVec 8)) :
    (reasonLine buffer).length = 27 + (formatString buffer).length := by
  simp only [reasonLine, List.length_append,
    show (ascii "*** \x1b[97mReason: ").length = 17 from by decide,
    show (ascii "\x1b[39m ***\n").length = 10 from by decide]
  omega

/-- The banner of a panic is short. -/
theorem printkShort_banner (cpu : BitVec 32) : PrintkShort cpu (ascii "panic")
    (ascii "\n\x1b[31mA kernel panic has occurred\x1b[39m\n") := by
  have hcpu := length_formatInt_le cpu
  refine ⟨by decide, ?_⟩
  rw [length_printkLine, show (ascii "panic").length = 5 from by decide, show (formatString
    (ascii "\n\x1b[31mA kernel panic has occurred\x1b[39m\n")).length = 39 from by decide]
  omega

/-- …and so is a line of the stack. -/
theorem length_stackLine_le (m : Mem) (bp : BitVec 64) : (stackLine m bp).length ≤ 511 := by
  have hbp : (formatHex bp).length ≤ 16 := length_formatNumber_le 16 16 _
  simp only [stackLine, List.length_append, length_formatPointer,
    show (ascii ": ").length = 2 from by decide, show (ascii " ").length = 1 from by decide,
    show (ascii "\n").length = 1 from by decide]
  omega

/-- **What a panic has to fit**: its reason, in the longest of the three places it is put, and the
lines with symbols. -/
theorem logFits_panic (m : Mem) (bp sp : BitVec 64) (backtrace : List Symbol) (caller : Symbol) :
    LogFits (panic cpu m bp sp backtrace caller text)
      ↔ text.length ≤ 511 ∧ 55 + (formatString text).length ≤ 511
        ∧ (∀ sym ∈ backtrace, PrintkShort cpu (ascii "backtrace") (symbolLine sym))
        ∧ PrintkShort cpu (ascii "stackdump") (stackdumpText caller (bp - sp)) := by
  have hheader : LogFits (ttyWrite (ascii "<addr>\t\t  <stack>\t   <stack+8>\n")) :=
    logFits_ttyWrite.mpr (by decide)
  have hstack : LogFits ((List.range (min (bp - sp).toNat 0x18)).flatMap fun i =>
      ttyWrite (stackLine m (at' bp (16 * i)))) :=
    logFits_flatMap.mpr fun i _ => logFits_ttyWrite.mpr (length_stackLine_le m _)
  simp only [panic, logFits_append, and_assoc]
  rw [logFits_formatInto rfl]
  refine and_congr_right fun hlen => ?_
  rw [and_iff_right (logFits_printk.mpr fun _ => printkShort_banner cpu), and_iff_left hstack,
    and_iff_left hheader, logFits_ttyWrite, logFits_implQuietDebug, List.length_append,
    length_reasonLine, formatString_formatInto _ hlen, logFits_flatMap, logFits_printk,
    imp_iff_right rfl, show (ascii "A kernel panic has occurred\n").length = 28 from by decide,
    ← and_assoc]
  simp only [logFits_backtraceSymbol]
  refine and_congr_left' ?_
  omega

/-- **When a call that logs stays in its buffers**: when its texts are short. -/
theorem logFits_iff (isVerboseBoot : Bool) (cpu : BitVec 32) (call : LogCall) :
    call.Fits isVerboseBoot cpu ↔ call.Short isVerboseBoot cpu := by
  cases call with
  | ttyWrite text => exact logFits_ttyWrite
  | printk status text => exact logFits_printk
  | verboseDebug line text => exact logFits_implVerboseDebug line
  | quietDebug text => exact logFits_implQuietDebug
  | panic m bp sp backtrace caller text => exact logFits_panic m bp sp backtrace caller
  | sysLog m buff len =>
    rw [LogCall.Fits, LogCall.writes, LogCall.Short]
    cases sysLogText m buff len with
    | none => simp [LogFits]
    | some text => simpa using logFits_printk

/-- A string of letters at the bottom of the user region. -/
def letters (n : ℕ) : Mem := fun b => if (b - 0x1000#64).toNat < n then 97#8 else 0#8

theorem cString_letters {n : ℕ} (hn : n < 2 ^ 64) :
    CString (letters n) 0x1000#64 (List.replicate n 97#8) := by
  refine ⟨fun i hi => ?_, by simp [List.mem_replicate]⟩
  rw [List.length_append, List.length_replicate, List.length_singleton] at hi
  rw [letters, toNat_at'_sub _ (by omega), List.get_eq_getElem]
  by_cases hlt : i < n
  · rw [if_pos hlt, List.getElem_append_left (by simpa using hlt), List.getElem_replicate]
  · rw [if_neg hlt, List.getElem_append_right (by simpa using hlt), List.getElem_singleton]

/-- **A string of 600 letters, which `sys_log` accepts, overruns the buffer of `printk`.** -/
theorem not_logFits_letters :
    sysLogText (letters 600) 0x1000#64 600#64 = some (List.replicate 600 97#8)
      ∧ ¬ (LogCall.sysLog (letters 600) 0x1000#64 600#64).Fits true 0#32 := by
  have htext := sysLogText_eq (cString_letters (n := 600) (by decide)) (by decide)
  rw [List.length_replicate] at htext
  refine ⟨htext, fun hfits => ?_⟩
  rw [LogCall.Fits, LogCall.writes, htext, Option.map_some, Option.getD_some, logFits_printk]
    at hfits
  have hshort := (hfits rfl).1
  rw [List.length_replicate] at hshort
  exact absurd hshort (by decide)

end Fits

end MoonOS
