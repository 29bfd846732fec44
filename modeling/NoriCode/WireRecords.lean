/-
**The records of the wire log.**

A record is a JSON value of which the program reads and replaces single fields.  Reading a field of
`undefined` or `null` throws, a field that is not there is `undefined`, and a field that becomes
`undefined` is not written.

The blob store takes large media out of a record before it is written: the `url` of a media part
that is a data URI is replaced by a reference to its hash.

Main definitions:

* `member`, `withField` — reading and replacing a field;
* `BlobStore.offload` — a record as it is written;
* `offloadAll`, `wireContent` — the records of a batch, and the text they are written as.

Main results:

* `lookupField_withField`, `lookupField_withField_ne` — a field is replaced without any other;
* `offloadAll_spec` — what the blob store does to the records of a batch.
-/

import NoriCode.LibJson
import NoriCode.LibSchemas

namespace NoriCode

open LibJson List

/-! ### Fields -/

/-- `fields[key]`, where it is not `undefined`. -/
def lookupField (fields : List (List Char × Json)) (key : String) : Option Json :=
  (fields.find? fun f => f.1 = key.toList).map Prod.snd

/-- `value[key]`.  Reading from `undefined` or `null` throws. -/
def member (value : Option Json) (key : String) : Option (Option Json) :=
  match value with
  | none => none
  | some .null => none
  | some (.obj fields) => some (lookupField fields key)
  | some _ => some none

/-- `{ ...fields, [key]: value }`: a field keeps its place, and a new one comes last. -/
def withField (fields : List (List Char × Json)) (key : String) (value : Option Json) :
    List (List Char × Json) :=
  match value with
  | none => fields.filter fun f => f.1 ≠ key.toList
  | some value =>
    if (fields.find? fun f => f.1 = key.toList).isSome then
      fields.map fun f => if f.1 = key.toList then (f.1, value) else f
    else fields ++ [(key.toList, value)]

/-- `value === s`. -/
def isString (value : Option Json) (s : String) : Bool :=
  match value with
  | some (.str t) => t = s.toList
  | _ => false

theorem lookupField_map {fields : List (List Char × Json)} {key : String}
    {g : List Char × Json → List Char × Json} (hkey : ∀ f, (g f).1 = f.1)
    (hval : ∀ f, f.1 = key.toList → g f = f) :
    lookupField (fields.map g) key = lookupField fields key := by
  unfold lookupField
  induction fields with
  | nil => rfl
  | cons f fields ih =>
    rw [map_cons, find?_cons, find?_cons, hkey f]
    by_cases hf : f.1 = key.toList
    · simp [hf, hval f hf]
    · simp only [hf, decide_false]
      exact ih

/-- **The other fields are left alone.** -/
theorem lookupField_withField_ne {key key' : String} (h : key' ≠ key)
    (fields : List (List Char × Json)) (value : Option Json) :
    lookupField (withField fields key value) key' = lookupField fields key' := by
  have hne : key.toList ≠ key'.toList := fun heq => h (String.toList_injective heq.symm)
  unfold withField
  split
  case h_1 =>
    unfold lookupField
    rw [find?_filter]
    congr 2
    funext f
    by_cases hf : f.1 = key'.toList
    · simp [hf, hne.symm]
    · simp [hf]
  case h_2 value =>
    split_ifs with hfound
    · refine lookupField_map (fun f => ?_) fun f hf => ?_
      · split <;> rfl
      · rw [if_neg]
        rw [hf]
        exact hne.symm
    · unfold lookupField
      rw [find?_append]
      simp [hne]

/-- **The field has the value it was given.** -/
theorem lookupField_withField (key : String) (fields : List (List Char × Json)) (value : Json) :
    lookupField (withField fields key (some value)) key = some value := by
  unfold withField lookupField
  dsimp only
  split_ifs with hfound
  · induction fields with
    | nil => cases hfound
    | cons f fields ih =>
      rw [map_cons, find?_cons]
      by_cases hf : f.1 = key.toList
      · simp [hf]
      · rw [find?_cons] at hfound
        simp only [hf, decide_false] at hfound
        simp only [hf, if_false, decide_false]
        exact ih hfound
  · rw [find?_append, Option.not_isSome_iff_eq_none.1 hfound]
    simp

theorem withField_twice (key : String) (fields : List (List Char × Json)) (value : Json) :
    withField (withField fields key (some value)) key (some value) =
      withField fields key (some value) := by
  have hfound : ((withField fields key (some value)).find? fun f => f.1 = key.toList).isSome := by
    have hlookup := lookupField_withField key fields value
    obtain ⟨f, hf, -⟩ := Option.map_eq_some_iff.1 hlookup
    rw [hf]
    rfl
  have hvalue : ∀ f ∈ withField fields key (some value), f.1 = key.toList → f.2 = value := by
    intro f hf hkey
    unfold withField at hf
    split_ifs at hf with hold
    · obtain ⟨g, -, rfl⟩ := mem_map.1 hf
      split_ifs at hkey ⊢ with hg
      · rfl
      · exact absurd hkey hg
    · cases mem_append.1 hf with
      | inl hf =>
        have hnone := Option.not_isSome_iff_eq_none.1 hold
        exact absurd hkey (by simpa using find?_eq_none.1 hnone f hf)
      | inr hf => rw [mem_singleton.1 hf]
  rw [withField, if_pos hfound, map_congr_left (g := id), map_id]
  intro f hf
  split_ifs with hkey
  · exact Prod.ext rfl (hvalue f hf hkey).symm
  · rfl

/-! ### The blob store -/

/-- Where large media go: from which size on, and the name of a payload. -/
structure BlobStore where
  threshold : ℕ
  hash : List Char → List Char

/-- The media type and the payload of a data URI. -/
def parseDataUri (url : List Char) : Option (List Char × List Char) :=
  if "data:".toList.isPrefixOf url then
    if (url.drop 5).takeWhile (· ≠ ';') ≠ [] ∧
        ";base64,".toList.isPrefixOf ((url.drop 5).dropWhile (· ≠ ';')) then
      some ((url.drop 5).takeWhile (· ≠ ';'), ((url.drop 5).dropWhile (· ≠ ';')).drop 8)
    else none
  else none

variable (store : BlobStore)

def BlobStore.maybeOffloadString (value : List Char) : List Char :=
  if "blobref:".toList.isPrefixOf value then value
  else
    match parseDataUri value with
    | none => value
    | some (mimeType, payload) =>
      if payload.length < store.threshold then value
      else "blobref:".toList ++ mimeType ++ ';' :: store.hash payload

/-- A value of a content part, with the `url` of a media container replaced. -/
def BlobStore.offloadMedia (value : Json) : Json :=
  match value with
  | .obj fields =>
    match lookupField fields "url" with
    | some (.str url) =>
      .obj (withField fields "url" (some (.str (store.maybeOffloadString url))))
    | _ => value
  | _ => value

def BlobStore.offloadContentPart (part : Json) : Option Json :=
  match part with
  | .null => none
  | .obj fields => some (.obj (fields.map fun f => (f.1, store.offloadMedia f.2)))
  | _ => some part

/-- The parts of a content.  The characters of a string are parts without media; what is neither a
string nor an array cannot be gone through. -/
def BlobStore.offloadParts (parts : Option Json) : Option Json :=
  match parts with
  | some (.arr parts) => (parts.mapM store.offloadContentPart).map .arr
  | some (.str s) => some (.str s)
  | _ => none

/-- **A record as it is written.** -/
def BlobStore.offload (record : Json) : Option Json := do
  let type ← member (some record) "type"
  match record with
  | .obj fields =>
    if isString type "turn.prompt" || isString type "turn.steer" then
      let input ← store.offloadParts (lookupField fields "input")
      return .obj (withField fields "input" (some input))
    else if isString type "context.append_message" then
      let content ← member (lookupField fields "message") "content"
      let content ← store.offloadParts content
      match lookupField fields "message" with
      | some (.obj message) =>
        return .obj (withField fields "message"
          (some (.obj (withField message "content" (some content)))))
      | _ => none
    else if isString type "context.append_loop_event" then
      let eventType ← member (lookupField fields "event") "type"
      if !isString eventType "tool.result" then return record
      let result ← member (lookupField fields "event") "result"
      let output ← member result "output"
      match output with
      | some (.str _) => return record
      | _ => do
          let output ← store.offloadParts output
          match lookupField fields "event", result with
          | some (.obj event), some (.obj result) =>
            return .obj (withField fields "event" (some (.obj (withField event "result"
              (some (.obj (withField result "output" (some output))))))))
          | _, _ => none
    else return record
  | _ => return record

theorem isString_eq {value : Option Json} {s t : String} (hs : isString value s = true)
    (ht : isString value t = true) : s = t := by
  unfold isString at hs ht
  split at hs
  case h_1 u =>
    exact String.toList_injective ((of_decide_eq_true hs).symm.trans (of_decide_eq_true ht))
  case h_2 => cases hs

/-- **What the blob store may do to a record**: it stays as it is, or a field other than its type is
replaced in a record that is no metadata. -/
def Offloaded (record record' : Json) : Prop :=
  record' = record ∨ ∃ fields key value, record = .obj fields ∧ key ≠ "type" ∧
    isString (lookupField fields "type") "metadata" = false ∧
    record' = .obj (withField fields key (some value))

theorem Offloaded.number {n : NumberText} {record' : Json} (h : Offloaded (.num n) record') :
    record' = .num n := by
  obtain rfl | ⟨fields, key, value, hnum, -⟩ := h
  · rfl
  · cases hnum

theorem BlobStore.offload_spec {record record' : Json} (h : store.offload record = some record') :
    Offloaded record record' := by
  cases record with
  | obj fields =>
    have hother : ∀ s, isString (lookupField fields "type") s = true → s ≠ "metadata" →
        isString (lookupField fields "type") "metadata" = false := fun s hs hne =>
      Bool.eq_false_iff.2 fun hm => hne (isString_eq hs hm)
    simp only [offload, member, Option.bind_eq_bind, Option.bind_some, Option.pure_def] at h
    split_ifs at h with hprompt hmessage hevent
    · obtain ⟨input, -, hval⟩ := Option.bind_eq_some_iff.1 h
      refine Or.inr ⟨fields, "input", input, rfl, by decide, ?_, (Option.some.inj hval).symm⟩
      cases Bool.or_eq_true_iff.1 hprompt with
      | inl hs => exact hother _ hs (by decide)
      | inr hs => exact hother _ hs (by decide)
    · obtain ⟨content, -, h⟩ := Option.bind_eq_some_iff.1 h
      obtain ⟨content', -, h⟩ := Option.bind_eq_some_iff.1 h
      split at h
      case h_1 message hlookup =>
        exact Or.inr ⟨fields, "message", _, rfl, by decide, hother _ hmessage (by decide),
          (Option.some.inj h).symm⟩
      case h_2 => cases h
    · obtain ⟨eventType, -, h⟩ := Option.bind_eq_some_iff.1 h
      split_ifs at h with hresult
      · exact Or.inl (Option.some.inj h).symm
      · obtain ⟨result, -, h⟩ := Option.bind_eq_some_iff.1 h
        obtain ⟨output, -, h⟩ := Option.bind_eq_some_iff.1 h
        split at h
        case h_1 => exact Or.inl (Option.some.inj h).symm
        case h_2 =>
          obtain ⟨output', -, h⟩ := Option.bind_eq_some_iff.1 h
          split at h
          case h_1 =>
            exact Or.inr ⟨fields, "event", _, rfl, by decide, hother _ hevent (by decide),
              (Option.some.inj h).symm⟩
          case h_2 => cases h
    · exact Or.inl (Option.some.inj h).symm
  | null => cases h
  | bool | num | str | arr => exact Or.inl (Option.some.inj h).symm

/-! ### The text of a batch -/

/-- The records of a batch, with their media in the blob store if there is one. -/
def offloadAll (blobStore : Option BlobStore) (records : List Json) : Option (List Json) :=
  match blobStore with
  | none => some records
  | some store => records.mapM store.offload

theorem offloadAll_spec {blobStore : Option BlobStore} {records records' : List Json}
    (h : offloadAll blobStore records = some records') :
    List.Forall₂ Offloaded records records' := by
  cases blobStore with
  | none =>
    cases h
    exact forall₂_same.2 fun record _ => Or.inl rfl
  | some store =>
    exact (LibSchemas.mapM_eq_some_iff.1 h).imp fun record record' => store.offload_spec

/-- The text of a batch: a line for each record. -/
def wireContent (records : List Json) : List Char :=
  records.flatMap fun record => stringify record ++ ['\n']

end NoriCode
