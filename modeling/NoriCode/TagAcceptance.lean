/-
**What an accepted tag says about the lines.**

Edit accepts a tag if the content on disk normalizes to the hashed stream.  The tag knows a line
break of every kind as one line feed, but a lone carriage return is no line break for the lines that
Edit counts, and neither is the one of a CRLF in a file with mixed line endings.  So two contents
with one tag need not have the same lines.

Main definitions:

* `readStream`, `editStream` — what the two tags are hashes of;
* `SameCoordinates` — when the lines are the same.

Main results:

* `accepted_same_lines_iff` — **if Edit accepts the tag of what was shown, the lines are
  the same exactly then**.
-/

import Mathlib
import NoriCode.ReadEditAgree

namespace NoriCode

open LibUtf8 LibLines List

/-! ### The streams -/

/-- What the tag that Read shows for a content is the hash of. -/
def readStream : KaosBackend → List Char → List Char
  | .localKaos, text => normalizedText text
  | .sshKaos, text => normalizedText ((stripBom text).filter fun c => !isBreak c)

/-- What the tag that Edit computes for a content is the hash of. -/
def editStream (text : List Char) : List Char := normalizedText (stripBom text)

/-- The text whose lines Edit counts, without its marks. -/
def editBody (text : List Char) : List Char := stripBom (stripBom text)

/-- A text of at most one line: no line break but a final LF or CRLF behind a line that is not
empty. -/
def OneLine (text : List Char) : Prop :=
  ∃ line, (∀ c ∈ line, isBreak c = false) ∧
    (text = line ∨ line ≠ [] ∧ (text = line ++ ['\n'] ∨ text = line ++ ['\r', '\n']))

/-- **When two contents with one tag have the same lines.** -/
def SameCoordinates : KaosBackend → List Char → List Char → Prop
  | .localKaos, shown, disk =>
    ¬ [bom, bom] <+: shown ∧
      (detectLineEndingStyle shown ≠ .mixed ∧ detectLineEndingStyle disk ≠ .mixed ∨
        detectLineEndingStyle shown = .mixed ∧ detectLineEndingStyle disk = .mixed ∧
          stripTrailingLf (editBody shown) = stripTrailingLf (editBody disk))
  | .sshKaos, shown, _ => OneLine (editBody shown)

/-- The lines that Edit counts in a file. -/
def linesOnDisk (text : List Char) : List (List Char) :=
  editLines (toModelTextView (stripBom text)).text

theorem linesOnDisk_eq (text : List Char) :
    linesOnDisk text = splitFileLines (toModelTextView (editBody text)).text := by
  rw [linesOnDisk, editLines, stripBom_toModelTextView, editBody]

theorem detectLineEndingStyle_editBody (text : List Char) :
    detectLineEndingStyle (editBody text) = detectLineEndingStyle text := by
  rw [editBody, detectLineEndingStyle_stripBom, detectLineEndingStyle_stripBom]

theorem editStream_eq (text : List Char) :
    editStream text = normalizeFrom '\r' '\n' false (editBody text) := rfl

/-! ### The marks in front -/

/-- How many byte order marks a text starts with. -/
def leadingMarks : List Char → ℕ
  | [] => 0
  | c :: text => if c = bom then leadingMarks text + 1 else 0

theorem leadingMarks_cons_of_ne {c : Char} (hc : c ≠ bom) (text : List Char) :
    leadingMarks (c :: text) = 0 := if_neg hc

theorem leadingMarks_bom_cons (text : List Char) :
    leadingMarks (bom :: text) = leadingMarks text + 1 := if_pos rfl

theorem leadingMarks_normalize (text : List Char) :
    leadingMarks (normalizeFrom '\r' '\n' false text) = leadingMarks text := by
  induction text with
  | nil => rfl
  | cons c text ih =>
    by_cases hc : c = bom
    · subst hc
      rw [normalizeFrom, if_neg plain_bom.1, leadingMarks_bom_cons, leadingMarks_bom_cons, ih]
    · rw [leadingMarks_cons_of_ne hc, normalizeFrom]
      split
      · have hlf : ∀ l : List Char, leadingMarks ('\n' :: l) = 0 :=
          leadingMarks_cons_of_ne (by decide)
        cases text with
        | nil => exact hlf []
        | cons d text =>
          rw [normalizeFrom]
          split
          · exact hlf _
          · split <;> exact hlf _
      · exact leadingMarks_cons_of_ne hc _

theorem leadingMarks_toModelTextView (text : List Char) :
    leadingMarks (toModelTextView text).text = leadingMarks text := by
  by_cases hmixed : detectLineEndingStyle text = .mixed
  · rw [toModelTextView_of_mixed hmixed]
  · rw [toModelTextView_eq_normalize hmixed, leadingMarks_normalize]

theorem leadingMarks_stripTrailingLf (text : List Char) :
    leadingMarks (stripTrailingLf text) = leadingMarks text := by
  induction text with
  | nil => rfl
  | cons c text ih =>
    rcases text with _ | ⟨d, text⟩
    · by_cases hc : c = '\n'
      · subst hc
        rfl
      · rw [stripTrailingLf_singleton hc]
    · rw [stripTrailingLf_cons c (cons_ne_nil d text)]
      by_cases hc : c = bom
      · rw [hc, leadingMarks_bom_cons, leadingMarks_bom_cons, ih]
      · rw [leadingMarks_cons_of_ne hc, leadingMarks_cons_of_ne hc]

/-! ### The local backend -/

variable {shown disk : List Char}

/-- Lines are the same when the views are the same up to a final line feed. -/
theorem linesOnDisk_eq_iff (hshown : (toModelTextView (editBody shown)).text ≠ [])
    (hdisk : (toModelTextView (editBody disk)).text ≠ []) :
    linesOnDisk shown = linesOnDisk disk ↔
      stripTrailingLf (toModelTextView (editBody shown)).text =
        stripTrailingLf (toModelTextView (editBody disk)).text := by
  rw [linesOnDisk_eq, linesOnDisk_eq, splitFileLines_eq_iff hshown hdisk]

theorem leadingMarks_of_lines (h : linesOnDisk shown = linesOnDisk disk) :
    leadingMarks (editBody shown) = leadingMarks (editBody disk) := by
  rw [← leadingMarks_toModelTextView (editBody shown),
    ← leadingMarks_toModelTextView (editBody disk)]
  by_cases hshown : (toModelTextView (editBody shown)).text = []
  · rw [linesOnDisk_eq, linesOnDisk_eq, hshown] at h
    rw [hshown, splitFileLines_eq_nil.1 h.symm]
  · by_cases hdisk : (toModelTextView (editBody disk)).text = []
    · rw [linesOnDisk_eq, linesOnDisk_eq, hdisk] at h
      exact absurd (splitFileLines_eq_nil.1 h) hshown
    · rw [← leadingMarks_stripTrailingLf, (linesOnDisk_eq_iff hshown hdisk).1 h,
        leadingMarks_stripTrailingLf]

variable {text : List Char}

theorem mem_stripTrailingLf {c : Char} (hc : c ≠ '\n') : c ∈ stripTrailingLf text ↔ c ∈ text := by
  rw [stripTrailingLf]
  split
  · rename_i hlast
    conv_rhs => rw [eq_append_lf hlast]
    rw [mem_append, mem_singleton]
    exact ⟨Or.inl, fun h => h.resolve_right hc⟩
  · rfl

theorem lines_ne_of_mixed
    (hshown : detectLineEndingStyle shown = .mixed) (hdisk : detectLineEndingStyle disk ≠ .mixed) :
    linesOnDisk shown ≠ linesOnDisk disk := by
  rw [← detectLineEndingStyle_editBody] at hshown hdisk
  have hcr : '\r' ∈ (toModelTextView (editBody shown)).text := by
    rw [toModelTextView_of_mixed hshown]
    exact mem_of_mixed hshown
  have hnoCr : '\r' ∉ (toModelTextView (editBody disk)).text := by
    rw [toModelTextView_eq_normalize hdisk]
    exact notMem_normalizeFrom (by decide) false _
  have hne : (toModelTextView (editBody shown)).text ≠ [] := ne_nil_of_mem hcr
  intro h
  by_cases hnil : (toModelTextView (editBody disk)).text = []
  · rw [linesOnDisk_eq, linesOnDisk_eq, hnil] at h
    exact hne (splitFileLines_eq_nil.1 h)
  · have hstrip := (linesOnDisk_eq_iff hne hnil).1 h
    rw [← mem_stripTrailingLf (by decide), hstrip, mem_stripTrailingLf (by decide)] at hcr
    exact hnoCr hcr

theorem same_lines_local (hstream : readStream .localKaos shown = editStream disk) :
    linesOnDisk shown = linesOnDisk disk ↔ SameCoordinates .localKaos shown disk := by
  by_cases htwo : [bom, bom] <+: shown
  · -- Read hashed a mark that Edit would have taken away.
    refine iff_of_false (fun h => ?_) fun h => h.1 htwo
    obtain ⟨rest, rfl⟩ := htwo
    have hbody : stripBom ([bom, bom] ++ rest) = bom :: rest := stripBom_bom_cons _
    have hmarks := leadingMarks_of_lines h
    have hstreamMarks := congrArg leadingMarks hstream
    rw [editStream_eq, leadingMarks_normalize, readStream, normalizedText, leadingMarks_normalize,
      hbody, leadingMarks_bom_cons, ← hmarks, editBody, hbody, stripBom_bom_cons] at hstreamMarks
    exact absurd hstreamMarks (Nat.succ_ne_self _)
  · have hbody : readStream .localKaos shown = normalizeFrom '\r' '\n' false (editBody shown) := by
      rw [readStream, normalizedText, editBody, stripBom_stripBom htwo]
    rw [hbody, editStream_eq] at hstream
    simp only [SameCoordinates, htwo, not_false_eq_true, true_and]
    by_cases hshown : detectLineEndingStyle shown = .mixed
    · by_cases hdisk : detectLineEndingStyle disk = .mixed
      · have hshown' := hshown
        have hdisk' := hdisk
        rw [← detectLineEndingStyle_editBody] at hshown' hdisk'
        have hne : ∀ text, detectLineEndingStyle text = .mixed →
            (toModelTextView text).text ≠ [] := by
          intro text h
          rw [toModelTextView_of_mixed h]
          exact ne_nil_of_mem (mem_of_mixed h)
        rw [linesOnDisk_eq_iff (hne _ hshown') (hne _ hdisk'), toModelTextView_of_mixed hshown',
          toModelTextView_of_mixed hdisk']
        simp [hshown, hdisk]
      · simp [hshown, hdisk, lines_ne_of_mixed hshown hdisk]
    · by_cases hdisk : detectLineEndingStyle disk = .mixed
      · simp [hshown, hdisk, (lines_ne_of_mixed hdisk hshown).symm]
      · refine iff_of_true ?_ (Or.inl ⟨hshown, hdisk⟩)
        rw [← detectLineEndingStyle_editBody] at hshown hdisk
        rw [linesOnDisk_eq, linesOnDisk_eq, toModelTextView_eq_normalize hshown,
          toModelTextView_eq_normalize hdisk, hstream]

/-! ### The remote backend -/

theorem replaceLf_replaceCrLf (h : Uniform '\r' '\n' text) :
    replaceLf (replaceCrLf text) = text := by
  induction h with
  | nil => rfl
  | @plain c text hc _ ih =>
    have hkeep : replaceLf (c :: replaceCrLf text) = c :: replaceLf (replaceCrLf text) := by
      rw [replaceLf, flatMap_cons, if_neg hc.2]
      rfl
    rw [replaceCrLf_cons hc.1, hkeep, ih]
  | @crlf text _ ih =>
    have hpair : replaceLf ('\n' :: replaceCrLf text) =
        '\r' :: '\n' :: replaceLf (replaceCrLf text) := rfl
    rw [replaceCrLf, if_pos ⟨rfl, rfl⟩, hpair, ih]

theorem replaceLf_of_no_break (h : ∀ c ∈ text, isBreak c = false) : replaceLf text = text :=
  replaceLf_of_notMem fun hmem => isBreak_eq_false.1 (h _ hmem) (Or.inr rfl)

variable {line : List Char}

theorem oneLine_of_view (hline : ∀ c ∈ line, isBreak c = false)
    (h : (toModelTextView text).text = line ∨
      line ≠ [] ∧ (toModelTextView text).text = line ++ ['\n']) : OneLine text := by
  cases hstyle : detectLineEndingStyle text with
  | lf | mixed =>
    rw [toModelTextView, hstyle] at h
    exact ⟨line, hline, h.imp id fun h => ⟨h.1, Or.inl h.2⟩⟩
  | crlf =>
    have hback := replaceLf_replaceCrLf (uniform_of_crlf hstyle)
    rw [toModelTextView, hstyle] at h
    rcases h with h | ⟨hne, h⟩
    · change replaceCrLf text = line at h
      rw [h, replaceLf_of_no_break hline] at hback
      exact ⟨line, hline, Or.inl hback.symm⟩
    · change replaceCrLf text = line ++ ['\n'] at h
      rw [h, replaceLf_append, replaceLf_of_no_break hline] at hback
      exact ⟨line, hline, Or.inr ⟨hne, Or.inr hback.symm⟩⟩

theorem lines_of_oneLine (hline : ∀ c ∈ line, isBreak c = false)
    (h : text = line ∨ line ≠ [] ∧ (text = line ++ ['\n'] ∨ text = line ++ ['\r', '\n'])) :
    splitFileLines (toModelTextView text).text = splitFileLines line := by
  have hplain : ∀ c ∈ line, Plain '\r' '\n' c := fun c hc =>
    not_or.1 (isBreak_eq_false.1 (hline c hc))
  have hcr : '\r' ∉ line := fun hmem => (hplain _ hmem).1 rfl
  have hview : ∀ ending : List Char, detectLineEndingStyle (line ++ ending) ≠ .mixed →
      (toModelTextView (line ++ ending)).text = line ++ normalizeFrom '\r' '\n' false ending := by
    intro ending hmixed
    rw [toModelTextView_eq_normalize hmixed,
      normalizeFrom_false_plain_append fun c hc => (hplain c hc).1]
  have hfinal : line ≠ [] → splitFileLines (line ++ ['\n']) = splitFileLines line := by
    intro hne
    have hlast : line.getLast? ≠ some '\n' := fun hmem =>
      (hplain _ (mem_of_getLast? hmem)).2 rfl
    refine (splitFileLines_eq_iff (append_ne_nil_of_left_ne_nil hne _) hne).2 ?_
    rw [stripTrailingLf, getLast?_concat, if_pos rfl, dropLast_concat, stripTrailingLf,
      if_neg hlast]
  have hstyle : ∀ ending : List Char, detectLineEndingStyle (line ++ ending) =
      lineEndingStyleFromFlags (breaksFrom '\r' '\n' {} false ending) := by
    intro ending
    rw [detectLineEndingStyle_eq, breaksFrom_false_plain_append hplain]
  rcases h with rfl | ⟨hne, rfl | rfl⟩
  · have := hview [] (by rw [hstyle]; decide)
    rw [append_nil] at this
    rw [this]
    exact congrArg splitFileLines (append_nil text)
  · rw [hview ['\n'] (by rw [hstyle]; decide)]
    exact hfinal hne
  · rw [hview ['\r', '\n'] (by rw [hstyle]; decide)]
    exact hfinal hne

theorem isBreak_readStream (text : List Char) :
    ∀ c ∈ readStream .sshKaos text, isBreak c = false := by
  have hkept : ∀ c ∈ stripBom ((stripBom text).filter fun c => !isBreak c), isBreak c = false := by
    refine isBreak_stripBom fun c hc => ?_
    have hfilter := (List.mem_filter.1 hc).2
    simpa using hfilter
  have hcr : '\r' ∉ stripBom ((stripBom text).filter fun c => !isBreak c) := fun hmem =>
    absurd (hkept _ hmem) (by decide)
  rw [readStream, normalizedText, normalizeFrom_of_notMem hcr]
  exact hkept

theorem readStream_of_oneLine (hline : ∀ c ∈ line, isBreak c = false) (h : editBody shown = line ∨
      line ≠ [] ∧ (editBody shown = line ++ ['\n'] ∨ editBody shown = line ++ ['\r', '\n'])) :
    readStream .sshKaos shown = line := by
  have hfilter : (editBody shown).filter (fun c => !isBreak c) = line := by
    have hself : line.filter (fun c => !isBreak c) = line :=
      filter_eq_self.2 fun c hc => by rw [hline c hc]; rfl
    have hending : (['\n'].filter fun c => !isBreak c) = [] ∧
        (['\r', '\n'].filter fun c => !isBreak c) = [] := by decide
    rcases h with h | ⟨-, h | h⟩
    · rw [h, hself]
    · rw [h, filter_append, hself, hending.1, append_nil]
    · rw [h, filter_append, hself, hending.2, append_nil]
  have hstrip : stripBom ((stripBom shown).filter fun c => !isBreak c) = line := by
    rw [editBody] at hfilter h
    rcases hshown : stripBom shown with _ | ⟨c, rest⟩
    · rw [hshown] at hfilter
      exact hfilter
    · rw [hshown] at hfilter h
      by_cases hc : c = bom
      · subst hc
        rw [stripBom_bom_cons] at hfilter
        rw [filter_cons_of_pos (by decide), stripBom_bom_cons, hfilter]
      · rw [stripBom_cons_of_ne hc] at hfilter h
        rw [hfilter]
        rcases line with _ | ⟨d, line⟩
        · rfl
        · have hd : d = c := by
            rcases h with h | ⟨-, h | h⟩ <;> exact (List.cons.inj h).1.symm
          exact stripBom_cons_of_ne (hd ▸ hc) line
  rw [readStream, normalizedText, hstrip]
  exact normalizeFrom_of_notMem fun hmem => absurd (hline _ hmem) (by decide)

theorem same_lines_ssh (hstream : readStream .sshKaos shown = editStream disk) :
    linesOnDisk shown = linesOnDisk disk ↔ SameCoordinates .sshKaos shown disk := by
  have hkept := isBreak_readStream shown
  -- The hashed stream has no line break, so it is the text on disk.
  have hdisk : readStream .sshKaos shown = editBody disk := by
    rw [hstream, editStream_eq] at hkept
    rw [hstream, editStream_eq]
    refine normalizeFrom_of_notMem fun hmem => ?_
    exact absurd (hkept _ (lf_mem_normalizeFrom hmem (Or.inl rfl) false)) (by decide)
  rw [hdisk] at hkept
  have hlines : linesOnDisk disk = splitFileLines (editBody disk) := by
    rw [linesOnDisk_eq]
    exact lines_of_oneLine hkept (Or.inl rfl)
  rw [hlines, linesOnDisk_eq, SameCoordinates]
  constructor
  · intro h
    refine oneLine_of_view hkept ?_
    by_cases hnil : editBody disk = []
    · rw [hnil] at h
      rw [hnil]
      exact Or.inl (splitFileLines_eq_nil.1 h)
    · have hview : (toModelTextView (editBody shown)).text ≠ [] := by
        intro hview
        rw [hview] at h
        exact hnil (splitFileLines_eq_nil.1 h.symm)
      have hstrip := (splitFileLines_eq_iff hview hnil).1 h
      have hlast : (editBody disk).getLast? ≠ some '\n' := fun hmem =>
        absurd (hkept _ (mem_of_getLast? hmem)) (by decide)
      rw [stripTrailingLf.eq_1 (editBody disk), if_neg hlast, stripTrailingLf] at hstrip
      split at hstrip
      · rename_i hend
        refine Or.inr ⟨hnil, ?_⟩
        rw [← hstrip]
        exact eq_append_lf hend
      · exact Or.inl hstrip
  · rintro ⟨line, hline, h⟩
    rw [lines_of_oneLine hline h, ← hdisk, readStream_of_oneLine hline h]

/-! ### Accepted edits -/

theorem toUpper_toUpper (c : Char) : c.toUpper.toUpper = c.toUpper :=
  Char.toUpper_eq_of_not_isLower (by simp)

theorem upperCase_streamTag (sha256 : List UInt8 → String) (stream : List UInt8) :
    upperCase (streamTag sha256 stream) = streamTag sha256 stream := by
  rw [upperCase, streamTag, String.toList_ofList, map_map]
  congr 1
  exact map_congr_left fun c _ => toUpper_toUpper c

theorem contentTag_of_read {sha256 : List UInt8 → String} {args : ReadInput}
    (hvalid : args.Valid) {kind : FileKind} {file : KaosFile (encode text)} {result : ReadResult}
    (h : readExecution sha256 args kind file = .ok result) :
    result.contentTag = streamTag sha256 (encode (readStream file.backend text)) := by
  have hkind : kind = .text := by
    cases kind <;> first | rfl | cases h
  subst hkind
  have hnul : Char.ofNat 0 ∉ text := by
    intro hmem
    obtain ⟨message, herror⟩ := readExecution_nul sha256 hvalid file hmem
    rw [herror] at h
    cases h
  have hlimit : 0 < min args.nLines MAX_LINES := lt_min hvalid.1 (by decide)
  have hoffset := hvalid.2
  simp only [readExecution] at h
  cases hwhere : args.lineOffset with
  | forward line =>
    rw [hwhere] at h
    cases file with
    | localKaos reads =>
      obtain ⟨result', hread, htag, -⟩ :=
        (readForward_local sha256 reads args.path hlimit line).2 hnul
      obtain rfl : result' = result := Except.ok.inj (hread.symm.trans h)
      exact htag
    | sshKaos =>
      obtain ⟨result', hread, htag, -⟩ := (readForward_ssh sha256 args.path line).2 hnul
      obtain rfl : result' = result := Except.ok.inj (hread.symm.trans h)
      exact htag
  | tail count =>
    rw [hwhere] at h hoffset
    cases file with
    | localKaos reads =>
      obtain ⟨result', hread, htag, -⟩ := (readTail_local sha256 reads args.path hoffset.1).2 hnul
      obtain rfl : result' = result := Except.ok.inj (hread.symm.trans h)
      exact htag
    | sshKaos =>
      obtain ⟨result', hread, htag, -⟩ := (readTail_ssh sha256 args.path count).2 hnul
      obtain rfl : result' = result := Except.ok.inj (hread.symm.trans h)
      exact htag

/-- **If Edit accepts the tag that was shown, the lines on disk are those that were shown exactly
when `SameCoordinates` says so.** The two streams are no collision of the tag. -/
theorem accepted_same_lines_iff {sha256 : List UInt8 → String} {shown disk : List Char}
    {args : ReadInput} {kind : FileKind} {file : KaosFile (encode shown)} {result : ReadResult}
    (hvalid : args.Valid) (hread : readExecution sha256 args kind file = .ok result)
    (hinjective : streamTag sha256 (encode (readStream file.backend shown)) =
      streamTag sha256 (encode (editStream disk)) → readStream file.backend shown = editStream disk)
    (haccept : computeContentTag sha256 (encode (stripBom disk)) = upperCase result.contentTag) :
    linesOnDisk shown = linesOnDisk disk ↔ SameCoordinates file.backend shown disk := by
  have htag := contentTag_of_read hvalid hread
  rw [htag, upperCase_streamTag, computeContentTag_encode] at haccept
  have hstream := hinjective haccept.symm
  cases file with
  | localKaos reads => exact same_lines_local hstream
  | sshKaos => exact same_lines_ssh hstream

/-- A file with LF is shown and one with CRLF is on disk. -/
theorem accepted_same_lines_crlf :
    linesOnDisk ['a', '\n', 'b'] = linesOnDisk ['a', '\r', '\n', 'b'] := by
  let sha256 : List UInt8 → String := fun _ =>
    "7e18f737311b2dc3b2f269dd78396b0351f14fb66efa879f768cb23181883c78"
  have hnul : Char.ofNat 0 ∉ ['a', '\n', 'b'] := by decide
  have hlimit : 0 < MAX_LINES := by decide
  obtain ⟨result, hread, htag, -⟩ :=
    (readForward_local sha256 (FileReads.whole (encode ['a', '\n', 'b'])) "file" hlimit 1).2 hnul
  have haccept : computeContentTag sha256 (encode (stripBom ['a', '\r', '\n', 'b'])) =
      upperCase result.contentTag := by
    rw [htag, upperCase_streamTag, computeContentTag_encode]
    rfl
  have hread' : readExecution sha256 readAll .text
      (.localKaos (FileReads.whole (encode ['a', '\n', 'b']))) = .ok result := hread
  exact (accepted_same_lines_iff readAll_valid hread' (fun _ => by decide) haccept).2
    ⟨by decide, Or.inl ⟨by decide, by decide⟩⟩

/-- **A lone carriage return became a line feed**: the tag of `a`, a carriage return and `b` is
accepted for the two lines `a` and `b`, and the swap of the one line that was shown leaves `b`. -/
theorem lone_cr_other_lines :
    ∃ sha256 : List UInt8 → String,
      sha256 (encode ['a', '\n', 'b']) =
        "7e18f737311b2dc3b2f269dd78396b0351f14fb66efa879f768cb23181883c78" ∧
      ∃ result, readExecution sha256 readAll .text
          (.localKaos (FileReads.whole (encode ['a', '\r', 'b']))) = .ok result ∧
        readStream .localKaos ['a', '\r', 'b'] = editStream ['a', '\n', 'b'] ∧
        result.contentTag = "7E18" ∧
        computeContentTag sha256 (encode (stripBom ['a', '\n', 'b'])) = "7E18" ∧
        linesOnDisk ['a', '\r', 'b'] = [['a', '\r', 'b']] ∧
        linesOnDisk ['a', '\n', 'b'] = [['a'], ['b']] ∧
        applyLineOperations (toModelTextView ['a', '\n', 'b']).text [.swap 1 1 ['x']] =
          .ok ['x', '\n', 'b'] := by
  let sha256 : List UInt8 → String := fun _ =>
    "7e18f737311b2dc3b2f269dd78396b0351f14fb66efa879f768cb23181883c78"
  have hnul : Char.ofNat 0 ∉ ['a', '\r', 'b'] := by decide
  have hlimit : 0 < MAX_LINES := by decide
  obtain ⟨result, hread, htag, -⟩ :=
    (readForward_local sha256 (FileReads.whole (encode ['a', '\r', 'b'])) "file" hlimit 1).2 hnul
  have hedit : computeContentTag sha256 (encode (stripBom ['a', '\n', 'b'])) = "7E18" := by
    rw [computeContentTag_encode]
    decide
  have hswap : applyLineOperations ['a', '\n', 'b'] [.swap 1 1 ['x']] = .ok ['x', '\n', 'b'] := by
    decide
  exact ⟨sha256, rfl, result, hread, by decide, htag.trans (by decide), hedit, by decide,
    by decide, hswap⟩

end NoriCode
