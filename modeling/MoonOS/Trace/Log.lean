import MoonOS.Base.Fmt

/-!
# Trace/Log — `printk` and `tty_write`, and the buffers they format into

`printk` formats its text into a buffer of 512 bytes, and `tty_write` formats the line around it
into another.  Both give the formatter `(size_t)-1` for the size of the buffer.  A call appears here
as the bytes it has written to each buffer on the way.

* `logFits_printk` — `printk` stays in both buffers exactly when the text has at most 511 characters
  and the line around it too.
-/

namespace MoonOS

/-! ## The buffers -/

/-- The buffers that are formatted into. -/
inductive LogBuffer
  | printk | ttyWrite | serialBuff | serialQBuff | panicBuff
  /-- The line number in `impl_verbose_debug`. -/
  | lineBuff
deriving DecidableEq, Repr

/-- How many bytes a buffer has. -/
def LogBuffer.size : LogBuffer → ℕ
  | .lineBuff => 7
  | _ => 512

/-- What was written to a buffer. -/
structure LogWrite where
  buffer : LogBuffer
  bytes : List (BitVec 8)

/-- `vsnprintf((string)&buffer, (size_t)-1, …)`. -/
def formatInto (buffer : LogBuffer) (text : List (BitVec 8)) : LogWrite :=
  ⟨buffer, vsnprintf (2 ^ 64 - 1) text⟩

/-- What is written to a buffer of 512 bytes has at most 512. -/
def LogFits (writes : List LogWrite) : Prop :=
  ∀ w ∈ writes, w.buffer.size = 512 → w.bytes.length ≤ 512

/-! ## `printk.c` -/

/-- `tty_write`. -/
def ttyWrite (text : List (BitVec 8)) : List LogWrite := [formatInto .ttyWrite text]

/-- What `printk` passes on: the text it has formatted, behind the core and the status. -/
def printkLine (cpu : BitVec 32) (status buffer : List (BitVec 8)) : List (BitVec 8) :=
  ascii "[core#" ++ formatInt cpu ++ ascii "] " ++ status ++ ascii ": " ++ formatString buffer

/-- `printk`. -/
def printk (isVerboseBoot : Bool) (cpu : BitVec 32) (status text : List (BitVec 8)) :
    List LogWrite :=
  if isVerboseBoot then
    let write := formatInto .printk text
    write :: ttyWrite (printkLine cpu status write.bytes)
  else []

/-- A call of `trace`: the module it is made in, and the text its format comes to. -/
structure TraceCall where
  status : List (BitVec 8)
  text : List (BitVec 8)

/-- The call stays in the buffers. -/
def TraceCall.Fits (isVerboseBoot : Bool) (cpu : BitVec 32) (t : TraceCall) : Prop :=
  LogFits (printk isVerboseBoot cpu t.status t.text)

/-- The text of a `printk` and the line around it have at most 511 characters. -/
def PrintkShort (cpu : BitVec 32) (status text : List (BitVec 8)) : Prop :=
  text.length ≤ 511 ∧ (printkLine cpu status text).length ≤ 511

/-! ## What keeps a `printk` in its buffers -/

section Fits

variable {isVerboseBoot : Bool} {cpu : BitVec 32} {status text : List (BitVec 8)}

/-- **The bound given to the formatter bounds nothing.** -/
theorem length_formatInto_le (b : LogBuffer) (text : List (BitVec 8)) :
    (formatInto b text).bytes.length ≤ 512 ↔ text.length ≤ 511 := by
  rw [formatInto, length_vsnprintf]
  omega

/-- A text that fits is passed on as it is. -/
theorem formatString_formatInto (b : LogBuffer) (h : text.length ≤ 511) :
    formatString (formatInto b text).bytes = formatString text := by
  rw [formatInto, vsnprintf_of_lt (by omega), formatString, formatString, List.takeWhile_append]
  split
  case isTrue hall =>
    exact (List.append_nil text).trans ((List.takeWhile_prefix _).eq_of_length hall).symm
  case isFalse => rfl

theorem logFits_append {ws ws' : List LogWrite} :
    LogFits (ws ++ ws') ↔ LogFits ws ∧ LogFits ws' :=
  List.forall_mem_append

theorem logFits_formatInto {b : LogBuffer} (hb : b.size = 512) :
    LogFits [formatInto b text] ↔ text.length ≤ 511 := by
  rw [LogFits, List.forall_mem_singleton, length_formatInto_le]
  exact imp_iff_right hb

theorem logFits_ttyWrite : LogFits (ttyWrite text) ↔ text.length ≤ 511 :=
  logFits_formatInto rfl

theorem length_printkLine (cpu : BitVec 32) (status text : List (BitVec 8)) :
    (printkLine cpu status text).length
      = 10 + (formatInt cpu).length + status.length + (formatString text).length := by
  simp only [printkLine, List.length_append, show (ascii "[core#").length = 6 from by decide,
    show (ascii "] ").length = 2 from by decide, show (ascii ": ").length = 2 from by decide]
  omega

/-- **`printk` needs room twice.** -/
theorem logFits_printk : LogFits (printk isVerboseBoot cpu status text)
    ↔ isVerboseBoot = true → PrintkShort cpu status text := by
  cases isVerboseBoot with
  | false => simp [printk, LogFits]
  | true =>
    rw [imp_iff_right rfl, printk, if_pos rfl, ← List.singleton_append, logFits_append,
      logFits_formatInto rfl, logFits_ttyWrite, PrintkShort]
    refine and_congr_right fun h => ?_
    rw [printkLine, printkLine, formatString_formatInto _ h]

end Fits

end MoonOS
