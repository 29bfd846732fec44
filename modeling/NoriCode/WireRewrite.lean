/-
**Writing the migrated log over the old one.**

A start that has migrated its records opens the log for writing, which empties it, and writes the
records from the first one on.  The metadata comes first and names the current version already.  So
when the process stops in between, the next start finds a front part of the new log: it is read
without an error, nothing is migrated any more, and the records behind it are gone.

Only the last line feed may be missing: then what follows the last but one line feed is a complete
record, which is read as such.

Main definitions:

* `StopPoint`, `leftOnDisk` — where the process stops, and what is on disk then;
* `Recovers` — the next start restores the same agent from all records;
* `Survives` — the log was not opened, or all but its last byte was written.

Main results:

* `tornText_line`, `readRecords_torn` — what is read of a text that breaks off;
* `rewrite_recovers_iff` — **a rewrite that is interrupted loses records**.
-/

import Mathlib.Algebra.GroupWithZero.Nat
import NoriCode.WireReplay
import NoriCode.LibJsonPrefix

namespace NoriCode

open LibJson List Option AgentRecords
open LibLines (pieces)

/-! ### Texts that break off -/

def utf8Length (text : List Char) : ℕ := (text.map Char.utf8Size).sum

/-- The first bytes of a text, read as a text.  A character of which only a part is there reads as
`U+FFFD`. -/
def tornText : List Char → ℕ → List Char
  | [], _ => []
  | c :: text, bytes =>
    if c.utf8Size ≤ bytes then c :: tornText text (bytes - c.utf8Size)
    else if bytes = 0 then []
    else ['\ufffd']

@[simp] theorem utf8Length_cons (c : Char) (s : List Char) :
    utf8Length (c :: s) = c.utf8Size + utf8Length s := by
  rw [utf8Length, map_cons, sum_cons]
  rfl

@[simp] theorem utf8Length_append (s t : List Char) :
    utf8Length (s ++ t) = utf8Length s + utf8Length t := by
  rw [utf8Length, map_append, sum_append]
  rfl

variable {bytes : ℕ}

theorem tornText_append {s : List Char} (h : utf8Length s ≤ bytes) (t : List Char) :
    tornText (s ++ t) bytes = s ++ tornText t (bytes - utf8Length s) := by
  induction s generalizing bytes with
  | nil => rfl
  | cons c s ih =>
    rw [utf8Length_cons] at h ⊢
    rw [cons_append, tornText, if_pos (by omega), ih (by omega), Nat.sub_sub]
    rfl

theorem tornText_all {s : List Char} (h : utf8Length s ≤ bytes) : tornText s bytes = s := by
  have hall := tornText_append h []
  rwa [append_nil, tornText, append_nil] at hall

/-- A text of which some bytes are missing: a front part of it, with `U+FFFD` behind it if a
character has lost some of its bytes. -/
theorem tornText_cut {s : List Char} (h : bytes < utf8Length s) (t : List Char) :
    ∃ p c q, s = p ++ c :: q ∧
      (tornText (s ++ t) bytes = p ∧ (c.utf8Size = 1 → bytes = utf8Length p) ∨
        tornText (s ++ t) bytes = p ++ ['\ufffd'] ∧ c.utf8Size ≠ 1) := by
  induction s generalizing bytes with
  | nil => exact absurd h (Nat.not_lt_zero _)
  | cons c s ih =>
    rw [utf8Length_cons] at h
    rw [cons_append, tornText]
    split_ifs with hfits hzero
    · obtain ⟨p, d, q, rfl, hcut⟩ := @ih (bytes - c.utf8Size) (by omega)
      refine ⟨c :: p, d, q, rfl, ?_⟩
      cases hcut with
      | inl hcut =>
        refine Or.inl ⟨by rw [hcut.1], fun hd => ?_⟩
        have hp := hcut.2 hd
        rw [utf8Length_cons]
        omega
      | inr hcut => exact Or.inr ⟨by rw [hcut.1]; rfl, hcut.2⟩
    · exact ⟨[], c, s, rfl, Or.inl ⟨rfl, fun _ => hzero⟩⟩
    · exact ⟨[], c, s, rfl, Or.inr ⟨rfl, by omega⟩⟩

/-! ### Lines that break off -/

/-- A front part of the text of a record, or one with a torn character behind it. -/
def BreaksOff (record : Json) (piece : List Char) : Prop :=
  ∃ p q, stringify record = p ++ q ∧ q ≠ [] ∧ (piece = p ∨ piece = p ++ ['\ufffd'])

/-- **A line of which some bytes are missing** has lost its line feed only, or breaks off in the
record. -/
theorem tornText_line {record : Json} (h : bytes < utf8Length (stringify record ++ ['\n']))
    (t : List Char) :
    (tornText (stringify record ++ ['\n'] ++ t) bytes = stringify record ∧
        bytes = utf8Length (stringify record)) ∨
      BreaksOff record (tornText (stringify record ++ ['\n'] ++ t) bytes) := by
  obtain ⟨p, c, q, hline, hcut⟩ := tornText_cut h t
  rcases eq_nil_or_concat q with rfl | ⟨q', d, rfl⟩
  · -- what is missing is the line feed, which is a single byte
    obtain ⟨hp, hc⟩ := append_inj' hline rfl
    obtain rfl := (List.cons.inj hc).1
    cases hcut with
    | inl hcut => exact Or.inl ⟨hcut.1.trans hp.symm, hp ▸ hcut.2 (by decide)⟩
    | inr hcut => exact absurd (by decide) hcut.2
  · have hsplit : stringify record ++ ['\n'] = (p ++ c :: q') ++ [d] := by
      rw [hline, concat_eq_append]
      simp
    obtain ⟨hp, -⟩ := append_inj' hsplit rfl
    refine Or.inr ⟨p, c :: q', hp, cons_ne_nil _ _, ?_⟩
    exact hcut.imp And.left And.left

variable {piece : List Char}

theorem readPiece_plain (h : '\n' ∉ piece) : readPiece piece = parseRecordLine piece true := by
  unfold readPiece
  rw [if_neg]
  exact fun hlast => h (mem_of_getLast? hlast)

variable (record : Json)

theorem stringify_ne_nil : stringify record ≠ [] := by
  obtain ⟨c, r, htext, -⟩ := stringify_head record
  rw [htext]
  exact cons_ne_nil _ _

theorem not_mem_stringify {c : Char} (hc : c.toNat < 0x20) : c ∉ stringify record := fun h => by
  have := stringify_printable record c h
  omega

theorem parseRecordLine_stringify (allowTruncated : Bool) :
    parseRecordLine (stringify record) allowTruncated = some (some record) := by
  unfold parseRecordLine
  rw [if_neg (stringify_ne_nil record), parse_stringify]

theorem readPiece_line : readPiece (stringify record ++ ['\n']) = some (some record) := by
  unfold readPiece
  rw [getLast?_concat, if_pos rfl, dropLast_concat, if_neg, parseRecordLine_stringify]
  exact fun hlast => not_mem_stringify record (by decide) (mem_of_getLast? hlast)

theorem readPiece_stringify : readPiece (stringify record) = some (some record) := by
  rw [readPiece_plain (not_mem_stringify record (by decide)), parseRecordLine_stringify]

theorem BreaksOff.plain {record : Json} (h : BreaksOff record piece) : '\n' ∉ piece := by
  obtain ⟨p, q, hrecord, -, hpiece⟩ := h
  have hp : '\n' ∉ p := fun hmem => not_mem_stringify record (c := '\n') (by decide) (by
    rw [hrecord]
    exact mem_append_left q hmem)
  cases hpiece with
  | inl hpiece => exact hpiece ▸ hp
  | inr hpiece =>
    rw [hpiece, mem_append]
    exact fun hmem => hmem.elim hp (by decide)

/-- **A record that breaks off** is left out; at most a number is read as another number. -/
theorem BreaksOff.readPiece {record : Json} (h : BreaksOff record piece) :
    NoriCode.readPiece piece = some none ∨
      ∃ n, NoriCode.readPiece piece = some (some (.num n)) ∧ .num n ≠ record := by
  rw [readPiece_plain h.plain]
  obtain ⟨p, q, hrecord, hq, hpiece⟩ := h
  unfold parseRecordLine
  split
  · exact Or.inl rfl
  · cases hparse : parse piece with
    | none => exact Or.inl rfl
    | some record' =>
      cases hpiece with
      | inr hpiece =>
        rw [hpiece] at hparse
        exact absurd (parse_ascii hparse) (by decide)
      | inl hpiece =>
        rw [hpiece] at hparse
        obtain ⟨⟨n, rfl⟩, hne⟩ := parse_prefix hrecord hq hparse
        exact Or.inr ⟨n, rfl, hne⟩

/-! ### Logs that break off -/

theorem wireContent_cons (records : List Json) :
    wireContent (record :: records) = stringify record ++ ['\n'] ++ wireContent records := rfl

theorem wireContent_append (records records' : List Json) :
    wireContent (records ++ records') = wireContent records ++ wireContent records' := by
  rw [wireContent, flatMap_append]
  rfl

variable {records : List Json}

/-- **A log of which some bytes are missing**: complete lines, and a line that has lost its line
feed or breaks off in its record. -/
theorem tornText_wireContent (h : bytes < utf8Length (wireContent records)) :
    ∃ done record todo piece, records = done ++ record :: todo ∧
      tornText (wireContent records) bytes = wireContent done ++ piece ∧
      (piece = stringify record ∧ (todo = [] → bytes + 1 = utf8Length (wireContent records)) ∨
        BreaksOff record piece) := by
  induction records generalizing bytes with
  | nil => exact absurd h (Nat.not_lt_zero _)
  | cons record records ih =>
    rw [wireContent_cons, utf8Length_append] at h
    rcases Nat.lt_or_ge bytes (utf8Length (stringify record ++ ['\n'])) with hlt | hge
    · refine ⟨[], record, records, _, rfl, rfl, ?_⟩
      rw [wireContent_cons]
      refine (tornText_line hlt (wireContent records)).imp (fun hline => ⟨hline.1, ?_⟩) id
      rintro rfl
      rw [hline.2]
      simp [wireContent]
      decide
    · obtain ⟨done, torn, todo, piece, rfl, htext, hpiece⟩ :=
        @ih (bytes - utf8Length (stringify record ++ ['\n'])) (by omega)
      refine ⟨record :: done, torn, todo, piece, rfl, ?_,
        hpiece.imp (fun hline => ⟨hline.1, ?_⟩) id⟩
      · rw [wireContent_cons, tornText_append hge, htext, wireContent_cons]
        exact (append_assoc _ _ _).symm
      · intro htodo
        have hlength := hline.2 htodo
        rw [wireContent_cons, utf8Length_append]
        omega

theorem pieces_wireContent (records : List Json) (h : '\n' ∉ piece) :
    pieces '\n' (wireContent records ++ piece) =
      records.map (fun record => stringify record ++ ['\n']) ++
        if piece = [] then [] else [piece] := by
  have hplain : ∀ s : List Char, '\n' ∉ s → ∀ a ∈ s, a ≠ '\n' := by
    rintro s hs a ha rfl
    exact hs ha
  induction records with
  | nil =>
    split_ifs with hpiece
    · rw [hpiece]
      rfl
    · have hpieces := LibLines.pieces_plain_append hpiece (hplain piece h) []
      rwa [append_nil] at hpieces
  | cons record records ih =>
    rw [wireContent_cons, append_assoc, append_assoc, singleton_append,
      LibLines.pieces_line_append (hplain _ (not_mem_stringify record (by decide))), ih]
    rfl

theorem readRecords_lines (records : List Json) :
    readRecords (records.map fun record => stringify record ++ ['\n']) = records := by
  induction records with
  | nil => rfl
  | cons record records ih =>
    rw [map_cons, readRecords, filterMap_cons, readPiece_line]
    exact congrArg _ ih

theorem readRecords_append (lines lines' : List (List Char)) :
    readRecords (lines ++ lines') = readRecords lines ++ readRecords lines' := by
  rw [readRecords, filterMap_append]
  rfl

/-- **What is read of a log that breaks off in a record**: the records before it, and at most a
number in place of another one. -/
theorem readRecords_torn (records : List Json) {record : Json} (h : BreaksOff record piece) :
    readRecords (pieces '\n' (wireContent records ++ piece)) = records ∨
      ∃ n, readRecords (pieces '\n' (wireContent records ++ piece)) = records ++ [.num n] ∧
        .num n ≠ record := by
  rw [pieces_wireContent records h.plain, readRecords_append, readRecords_lines]
  split_ifs with hpiece
  · exact Or.inl (append_nil records)
  · cases h.readPiece with
    | inl hread =>
      left
      simp [readRecords, hread]
    | inr hread =>
      obtain ⟨n, hread, hne⟩ := hread
      exact Or.inr ⟨n, by simp [readRecords, hread], hne⟩

theorem tornText_last (h : utf8Length (wireContent records) ≤ bytes + 1) :
    tornText (wireContent records) bytes = wireContent records ∨
      ∃ init last, records = init ++ [last] ∧
        tornText (wireContent records) bytes = wireContent init ++ stringify last := by
  rcases eq_nil_or_concat records with rfl | ⟨init, last, rfl⟩
  · exact Or.inl (tornText_all (Nat.zero_le _))
  · rw [concat_eq_append] at h ⊢
    have hcontent :
        wireContent (init ++ [last]) = wireContent init ++ stringify last ++ ['\n'] := by
      rw [wireContent_append, append_assoc]
      exact congrArg _ (append_nil _)
    rw [hcontent] at h ⊢
    rw [utf8Length_append] at h
    have hnewline : utf8Length ['\n'] = 1 := by decide
    rcases Nat.lt_or_ge bytes (utf8Length (wireContent init ++ stringify last) + 1) with hlt | hge
    · right
      refine ⟨init, last, rfl, ?_⟩
      have hzero : bytes - utf8Length (wireContent init ++ stringify last) = 0 := by omega
      rw [tornText_append (by omega), hzero]
      exact append_nil _
    · left
      refine tornText_all ?_
      rw [utf8Length_append]
      omega

theorem readRecords_last (h : utf8Length (wireContent records) ≤ bytes + 1) :
    readRecords (pieces '\n' (tornText (wireContent records) bytes)) = records ∧
      ∀ line ∈ pieces '\n' (tornText (wireContent records) bytes), (readPiece line).isSome := by
  have hlines : ∀ records : List Json,
      ∀ line ∈ records.map fun record => stringify record ++ ['\n'], (readPiece line).isSome := by
    intro records line hline
    obtain ⟨record, -, rfl⟩ := mem_map.1 hline
    rw [readPiece_line]
    rfl
  rcases tornText_last h with htext | ⟨init, last, rfl, htext⟩
  · have hpieces : pieces '\n' (wireContent records ++ []) = _ :=
      pieces_wireContent records not_mem_nil
    rw [append_nil, if_pos rfl, append_nil] at hpieces
    rw [htext, hpieces]
    exact ⟨readRecords_lines records, hlines records⟩
  · rw [htext, pieces_wireContent init (not_mem_stringify last (by decide)),
      if_neg (stringify_ne_nil last)]
    refine ⟨?_, fun line hline => ?_⟩
    · rw [readRecords_append, readRecords_lines]
      simp [readRecords, readPiece_stringify]
    · cases mem_append.1 hline with
      | inl hline => exact hlines init line hline
      | inr hline =>
        rw [mem_singleton.1 hline, readPiece_stringify]
        rfl

/-! ### The rewrite -/

variable {σ : Type} (agent : WireAgent σ)

/-- Where the process stops while the log is rewritten: before the log is opened for it, or after
so many bytes. -/
inductive StopPoint where
  | beforeRewrite
  | written (bytes : ℕ)

/-- **What is on disk** when the rewrite after a replay stops.  Media that cannot be taken out of
the records leave the log as it is. -/
def leftOnDisk (text : List Char) (run : ReplayResult σ) : StopPoint → List Char
  | .beforeRewrite => text
  | .written bytes =>
    match offloadAll agent.blobStore run.records with
    | none => text
    | some records => tornText (wireContent records) bytes

/-- **The next start restores the same agent from all records**, which have their media in the blob
store or not. -/
def Recovers (run : ReplayResult σ) (disk : List Char) : Prop :=
  ∃ next, AgentRecords.replay agent disk = some next ∧ next.completed = true ∧
    next.state = run.state ∧
    (next.records = run.records ∨ offloadAll agent.blobStore run.records = some next.records)

/-- The log was not opened for the rewrite, or all of it was written but for its last line feed. -/
def Survives (run : ReplayResult σ) : StopPoint → Prop
  | .beforeRewrite => True
  | .written bytes => ∀ records ∈ offloadAll agent.blobStore run.records,
      utf8Length (wireContent records) ≤ bytes + 1

/-- Records rebuild the same state when their media are in the blob store. -/
def WireAgent.Rehydrates : Prop :=
  ∀ records records', offloadAll agent.blobStore records = some records' →
    agent.rebuild records' = agent.rebuild records

variable {agent}

/-- What the replay of stamped records has read is a front part of them. -/
theorem AgentRecords.replay_isPrefix {text : List Char} {next : ReplayResult σ}
    (hstamped : ∀ r ∈ readRecords (pieces '\n' text), Stamped r)
    (hnext : AgentRecords.replay agent text = some next) :
    next.records <+: readRecords (pieces '\n' text) := by
  obtain ⟨inner, hinner, hval⟩ := bind_eq_some_iff.1 hnext
  cases hval
  have hopened : ∀ log ∈ (none : Option OpenedLog), log.migrations = [] := fun log hlog => by
    cases hlog
  have hfront := replayFrom_isPrefix hopened hstamped hinner
  exact hfront

/-- **The replay of a log that breaks off** has fewer records, or a number in place of the last
one. -/
theorem replay_torn (hstamped : ∀ r ∈ records, Stamped r)
    (h : bytes + 1 < utf8Length (wireContent records)) {next : ReplayResult σ}
    (hnext : AgentRecords.replay agent (tornText (wireContent records) bytes) = some next) :
    next.records.length < records.length ∨
      ∃ done record n, records = done ++ [record] ∧ .num n ≠ record ∧
        next.records = done ++ [.num n] := by
  obtain ⟨done, record, todo, piece, rfl, htext, hpiece⟩ :=
    tornText_wireContent (Nat.lt_of_succ_lt h)
  rw [htext] at hnext
  have hdone : ∀ r ∈ done, Stamped r := fun r hr => hstamped r (mem_append_left _ hr)
  have hlength : (done ++ record :: todo).length = done.length + 1 + todo.length := by
    rw [length_append, length_cons]
    omega
  -- a front part of the records that come before, and of one in place of the next one
  have hread : ∀ last, readRecords (pieces '\n' (wireContent done ++ piece)) = done ++ [last] →
      Stamped last → next.records <+: done ++ [last] := fun last hlast hstamp => by
    rw [← hlast]
    refine replay_isPrefix (fun r hr => ?_) hnext
    rw [hlast] at hr
    cases mem_append.1 hr with
    | inl hr => exact hdone r hr
    | inr hr => exact mem_singleton.1 hr ▸ hstamp
  rcases hpiece with ⟨rfl, htodo⟩ | hbreak
  · have hne : todo ≠ [] := fun hnil => by
      have := htodo hnil
      omega
    have hpos := length_pos_iff.2 hne
    have hlast : readRecords (pieces '\n' (wireContent done ++ stringify record)) =
        done ++ [record] := by
      rw [pieces_wireContent done (not_mem_stringify record (by decide)),
        if_neg (stringify_ne_nil record), readRecords_append, readRecords_lines]
      simp [readRecords, readPiece_stringify]
    have hfront := (hread record hlast (hstamped record (by simp))).length_le
    rw [length_append, length_singleton] at hfront
    left
    omega
  · rcases readRecords_torn done hbreak with hlast | ⟨n, hlast, hnum⟩
    · have hfront : next.records <+: done := by
        rw [← hlast]
        refine replay_isPrefix (fun r hr => ?_) hnext
        rw [hlast] at hr
        exact hdone r hr
      have hle := hfront.length_le
      left
      omega
    · have hfront := hread (.num n) hlast rfl
      have hle := hfront.length_le
      rw [length_append, length_singleton] at hle
      rcases Nat.lt_or_ge next.records.length (done ++ record :: todo).length with hlt | hge
      · exact Or.inl hlt
      · have htodo : todo = [] := length_eq_zero_iff.1 (by omega)
        refine Or.inr ⟨done, record, n, by rw [htodo], hnum, ?_⟩
        refine hfront.eq_of_length ?_
        rw [length_append, length_singleton]
        omega

theorem replay_last (hstamped : ∀ r ∈ records, Stamped r)
    (hfirst : ∃ first rest, records = first :: rest ∧ IsMetadata first)
    (h : utf8Length (wireContent records) ≤ bytes + 1) {state : σ}
    (hstate : agent.rebuild records = some (state, true)) :
    ∃ log, AgentRecords.replay agent (tornText (wireContent records) bytes) =
      some ⟨state, records, true, log⟩ := by
  obtain ⟨hrecords, hread⟩ := readRecords_last h
  obtain ⟨⟨inner, completed⟩, hinner, hval⟩ := map_eq_some_iff.1 hstate
  obtain ⟨hfinish, rfl⟩ := Prod.mk.inj hval
  rw [← hrecords] at hstamped hfirst hinner
  have hopened : ∀ log ∈ (none : Option OpenedLog), log.migrations = [] := fun log hlog => by
    cases hlog
  obtain ⟨log, hlog⟩ := replayFrom_readRecords hopened (fun _ => hfirst) hread hstamped hinner
  refine ⟨log, ?_⟩
  rw [hrecords] at hlog
  unfold AgentRecords.replay
  rw [hlog, ← hfinish]
  rfl

/-- **A rewrite that is interrupted loses records.** The next start restores the same agent from all
records exactly if the log was not opened for the rewrite or all of it was written, but for its last
line feed. -/
theorem rewrite_recovers_iff (hoffload : agent.Rehydrates) {text : List Char}
    {run : ReplayResult σ} (hrun : AgentRecords.replay agent text = some run)
    (hrewrite : run.shouldRewrite = true) (stop : StopPoint) :
    Recovers agent run (leftOnDisk agent text run stop) ↔ Survives agent run stop := by
  obtain ⟨hstate, hstamped, hfirst⟩ := replay_spec hrun
  obtain ⟨hcompleted, hopened⟩ := Bool.and_eq_true_iff.1 hrewrite
  have hold : Recovers agent run text := ⟨run, hrun, hcompleted, rfl, Or.inl rfl⟩
  cases stop with
  | beforeRewrite => exact iff_of_true hold trivial
  | written bytes =>
    cases hrecords : offloadAll agent.blobStore run.records with
    | none =>
      rw [leftOnDisk, hrecords]
      exact iff_of_true hold fun records h => by
        rw [hrecords] at h
        cases h
    | some records =>
      have hall := offloadAll_spec hrecords
      have hstamped' : ∀ r ∈ records, Stamped r := fun r' hr' => by
        obtain ⟨r, hr, hoffloaded⟩ := LibSchemas.exists_of_forall₂ hall hr'
        exact hoffloaded.stamped (hstamped r hr)
      rw [leftOnDisk, hrecords]
      constructor
      · rintro ⟨next, hnext, -, -, hsame⟩ records' h
        cases hrecords.symm.trans h
        by_contra hlong
        have hlength := hall.length_eq
        rcases replay_torn hstamped' (Nat.lt_of_not_le hlong) hnext with
          hlost | ⟨done, record, n, hdone, hne, hnumber⟩
        · rcases hsame with hsame | hsame
          · rw [hsame] at hlost
            omega
          · cases hrecords.symm.trans hsame
            omega
        · rcases hsame with hsame | hsame
          · -- the blob store has not made a number of the last record
            rw [← hsame, hnumber, hdone] at hall
            have hlast := List.forall₂_drop_append _ _ _ hall
            rw [List.drop_left] at hlast
            exact hne (Offloaded.number (List.forall₂_cons.1 hlast).1).symm
          · cases hrecords.symm.trans hsame
            rw [hnumber] at hdone
            exact hne (List.cons.inj (List.append_cancel_left hdone)).1
      · intro hsurvives
        have hstate' : agent.rebuild records = some (run.state, true) := by
          rw [hoffload _ _ hrecords, hstate, hcompleted]
        have hfirst' : ∃ first rest, records = first :: rest ∧ IsMetadata first := by
          obtain ⟨first, rest, hcons, hmetadata⟩ := hfirst (Option.isSome_of_any hopened)
          rw [hcons] at hall
          cases hall with
          | cons hhead hrest => exact ⟨_, _, rfl, hhead.metadata hmetadata⟩
        obtain ⟨log, hnext⟩ := replay_last hstamped' hfirst' (hsurvives records hrecords) hstate'
        exact ⟨_, hnext, rfl, rfl, Or.inr hrecords⟩

/-- An agent that remembers what it restores, without a blob store. -/
def recordingAgent : WireAgent (List Json) where
  initial := []
  restore state record := some (state ++ [record], false)
  finishReplay state := state
  rehydrate state := state
  blobStore := none

theorem recordingAgent_rehydrates : recordingAgent.Rehydrates := by
  intro records records' h
  cases h
  rfl

/-- A log of the version before the current one: metadata and a goal that was cleared. -/
def olderLog : List Char :=
  ("\x7b\"type\":\"metadata\",\"protocol_version\":\"1.3\"\x7d\n" ++
    "\x7b\"type\":\"goal.clear\",\"goalId\":\"g\"\x7d\n").toList

theorem rewrite_recovers_iff_older : ∃ run,
    AgentRecords.replay recordingAgent olderLog = some run ∧ run.shouldRewrite = true ∧
      (Recovers recordingAgent run (leftOnDisk recordingAgent olderLog run (.written 45)) ↔
        Survives recordingAgent run (.written 45)) := by
  have hrun : (AgentRecords.replay recordingAgent olderLog).any (·.shouldRewrite) = true := by
    decide +kernel
  obtain ⟨run, hrun, hrewrite⟩ := (Option.any_eq_true _ _).1 hrun
  exact ⟨run, hrun, hrewrite,
    rewrite_recovers_iff recordingAgent_rehydrates hrun hrewrite (.written 45)⟩

/-- **The process stops behind the metadata**: the next start takes the log for a complete one of
the current version, and the goal is not cleared any more. -/
theorem not_rewrite_recovers : ¬ ∀ (σ : Type) (agent : WireAgent σ), agent.Rehydrates →
    ∀ text run, AgentRecords.replay agent text = some run → run.shouldRewrite = true →
      ∀ stop, Recovers agent run (leftOnDisk agent text run stop) := by
  intro h
  have hall : (AgentRecords.replay recordingAgent olderLog).any (fun run =>
      run.shouldRewrite && (run.records.length == 2) &&
        (AgentRecords.replay recordingAgent
          (leftOnDisk recordingAgent olderLog run (.written 45))).all
            fun next => next.records.length == 1) = true := by
    decide +kernel
  obtain ⟨run, hrun, hall⟩ := (Option.any_eq_true _ _).1 hall
  simp only [Bool.and_eq_true, beq_iff_eq] at hall
  obtain ⟨⟨hrewrite, hlength⟩, hnext⟩ := hall
  obtain ⟨next, hreplay, -, -, hsame⟩ :=
    h _ recordingAgent recordingAgent_rehydrates olderLog run hrun hrewrite (.written 45)
  rw [hreplay, Option.all_some, beq_iff_eq] at hnext
  have hrecords : next.records = run.records := hsame.elim id fun hsame =>
    (some.inj hsame).symm
  rw [hrecords, hlength] at hnext
  cases hnext

end NoriCode
