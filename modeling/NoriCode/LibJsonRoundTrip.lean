/-
**What is printed is read back.**

The parser gives the value whose text it reads, and leaves what follows it.  A number is read as far
as it goes, so what follows a value must not go on with a number.

Main definitions:

* `LibJson.Follows` — what may follow a value.

Main results:

* `LibJson.parseValue_stringify` — a value at the head of a text;
* `LibJson.parse_stringify` — **a whole text**.
-/

import NoriCode.LibJson

namespace LibJson

open List Option

/-! ### Strings -/

theorem hexValue_hexDigit : ∀ n < 16, hexValue (hexDigit n) = some n := by decide

variable {c : Char}

theorem parseUnits_plain (hquote : c ≠ '"') (hbackslash : c ≠ '\\')
    (hcontrol : ¬ c.toNat < 0x20) (rest : List Char) :
    parseUnits (c :: rest) = (parseUnits rest).map fun p => (c.toNat :: p.1, p.2) := by
  rw [parseUnits_cons hquote fun _ _ h => absurd h hbackslash,
    if_neg (not_or.2 ⟨hbackslash, hcontrol⟩)]

theorem parseUnits_escape {e : Char} (hu : e ≠ 'u') (he : unescape e = some c) (rest : List Char) :
    parseUnits ('\\' :: e :: rest) = (parseUnits rest).map fun p => (c.toNat :: p.1, p.2) := by
  rw [parseUnits_backslash fun _ _ _ _ _ h => absurd h hu, he]
  rfl

theorem parseUnits_control (hcontrol : c.toNat < 0x20) (rest : List Char) :
    parseUnits ('\\' :: 'u' :: '0' :: '0' :: hexDigit (c.toNat / 16) :: hexDigit (c.toNat % 16) ::
      rest) = (parseUnits rest).map fun p => (c.toNat :: p.1, p.2) := by
  have hhigh := hexValue_hexDigit (c.toNat / 16) (by omega)
  have hlow := hexValue_hexDigit (c.toNat % 16) (by omega)
  have hzero : hexValue '0' = some 0 := by decide
  have hcode : ((0 * 16 + 0) * 16 + c.toNat / 16) * 16 + c.toNat % 16 = c.toNat := by omega
  have hhex : hex4 '0' '0' (hexDigit (c.toNat / 16)) (hexDigit (c.toNat % 16)) = some c.toNat := by
    rw [hex4, hzero, hhigh, hlow]
    exact congrArg some hcode
  rw [parseUnits_hex, hhex]
  rfl

/-- How a character is written: with a letter behind a backslash, as a code, or as itself. -/
theorem escapeChar_cases (c : Char) :
    (∃ e, escapeChar c = ['\\', e] ∧ e ≠ 'u' ∧ unescape e = some c ∧ 0x20 ≤ e.toNat) ∨
      (c.toNat < 0x20 ∧ escapeChar c =
        ['\\', 'u', '0', '0', hexDigit (c.toNat / 16), hexDigit (c.toNat % 16)]) ∨
      (c ≠ '"' ∧ c ≠ '\\' ∧ ¬c.toNat < 0x20 ∧ escapeChar c = [c]) := by
  unfold escapeChar
  by_cases hquote : c = '"'
  · exact .inl ⟨'"', if_pos hquote, by decide, by rw [hquote]; rfl, by decide⟩
  rw [if_neg hquote]
  by_cases hbackslash : c = '\\'
  · exact .inl ⟨'\\', if_pos hbackslash, by decide, by rw [hbackslash]; rfl, by decide⟩
  rw [if_neg hbackslash]
  by_cases hnewline : c = '\n'
  · exact .inl ⟨'n', if_pos hnewline, by decide, by rw [hnewline]; rfl, by decide⟩
  rw [if_neg hnewline]
  by_cases hreturn : c = '\r'
  · exact .inl ⟨'r', if_pos hreturn, by decide, by rw [hreturn]; rfl, by decide⟩
  rw [if_neg hreturn]
  by_cases htab : c = '\t'
  · exact .inl ⟨'t', if_pos htab, by decide, by rw [htab]; rfl, by decide⟩
  rw [if_neg htab]
  by_cases hback : c = '\x08'
  · exact .inl ⟨'b', if_pos hback, by decide, by rw [hback]; rfl, by decide⟩
  rw [if_neg hback]
  by_cases hfeed : c = '\x0c'
  · exact .inl ⟨'f', if_pos hfeed, by decide, by rw [hfeed]; rfl, by decide⟩
  rw [if_neg hfeed]
  by_cases hcontrol : c.toNat < 0x20
  · exact .inr (.inl ⟨hcontrol, if_pos hcontrol⟩)
  · exact .inr (.inr ⟨hquote, hbackslash, hcontrol, if_neg hcontrol⟩)

theorem parseUnits_escapeChar (c : Char) (rest : List Char) :
    parseUnits (escapeChar c ++ rest) = (parseUnits rest).map fun p => (c.toNat :: p.1, p.2) := by
  obtain ⟨e, heq, hu, hc, -⟩ | ⟨hcontrol, heq⟩ | ⟨hquote, hbackslash, hcontrol, heq⟩ :=
    escapeChar_cases c
  · rw [heq]
    exact parseUnits_escape hu hc rest
  · rw [heq]
    exact parseUnits_control hcontrol rest
  · rw [heq]
    exact parseUnits_plain hquote hbackslash hcontrol rest

theorem parseUnits_quoted (s rest : List Char) :
    parseUnits (s.flatMap escapeChar ++ '"' :: rest) = some (s.map Char.toNat, rest) := by
  induction s with
  | nil => exact parseUnits_quote rest
  | cons c s ih => rw [flatMap_cons, append_assoc, parseUnits_escapeChar, ih]; rfl

theorem ofUnits_toNat (s : List Char) : ofUnits (s.map Char.toNat) = s := by
  have hvalid : ∀ c : Char, (if c.toNat.isValidChar then Char.ofNat c.toNat
      else Char.ofNat 0xfffd) = c := by
    intro c
    have hc : c.toNat.isValidChar := c.valid
    rw [if_pos hc, Char.ofNat_toNat]
  induction s with
  | nil => rfl
  | cons c s ih =>
    cases s with
    | nil =>
      rw [map_cons, map_nil, ofUnits, hvalid]
    | cons d s =>
      have hsurrogate : ¬ (0xd800 ≤ c.toNat ∧ c.toNat < 0xdc00 ∧ 0xdc00 ≤ d.toNat ∧
          d.toNat < 0xe000) := by
        have hc : c.toNat.isValidChar := c.valid
        omega
      rw [map_cons] at ih ⊢
      rw [map_cons, ofUnits, if_neg hsurrogate, hvalid, ih]

theorem parseChars_quoted (s rest : List Char) :
    parseChars (s.flatMap escapeChar ++ '"' :: rest) = some (s, rest) := by
  rw [parseChars, parseUnits_quoted]
  change some (ofUnits (s.map Char.toNat), rest) = _
  rw [ofUnits_toNat]

/-! ### Heads of texts -/

/-- What may follow a value: nothing that goes on with a number. -/
def Follows (rest : List Char) : Prop := ∀ c ∈ rest.head?, isNumberChar c = false

theorem follows_nil : Follows [] := by
  intro c hc
  cases hc

theorem follows_cons (h : isNumberChar c = false) (rest : List Char) : Follows (c :: rest) := by
  intro d hd
  rw [head?_cons, mem_some_iff] at hd
  exact hd ▸ h

theorem skipWs_cons (h : isWs c = false) (rest : List Char) : skipWs (c :: rest) = c :: rest := by
  rw [skipWs, dropWhile_cons_of_neg (by rw [h]; exact Bool.false_ne_true)]

theorem NumberText.head (n : NumberText) : ∃ c r, n.text = c :: r ∧ isNumberChar c = true := by
  have hvalid := n.valid
  cases htext : n.text with
  | nil =>
    rw [htext] at hvalid
    exact absurd hvalid (by decide)
  | cons c r =>
    unfold isNumberText at hvalid
    rw [htext, Bool.and_eq_true, all_cons, Bool.and_eq_true] at hvalid
    exact ⟨c, r, rfl, hvalid.1.1⟩

theorem NumberText.all (n : NumberText) : ∀ c ∈ n.text, isNumberChar c = true := by
  have hvalid := n.valid
  unfold isNumberText at hvalid
  rw [Bool.and_eq_true] at hvalid
  exact all_eq_true.1 hvalid.1

theorem ne_of_isNumberChar {d : Char} (hc : isNumberChar c = true)
    (hd : isNumberChar d = false) : c ≠ d := by
  rintro rfl
  rw [hc] at hd
  cases hd

theorem isWs_of_isNumberChar (h : isNumberChar c = true) : isWs c = false := by
  have hspace := ne_of_isNumberChar h (d := ' ') (by decide)
  have htab := ne_of_isNumberChar h (d := '\t') (by decide)
  have hnewline := ne_of_isNumberChar h (d := '\n') (by decide)
  have hreturn := ne_of_isNumberChar h (d := '\r') (by decide)
  simp [isWs, hspace, htab, hnewline, hreturn]

/-- The text of a value starts with none of the characters that separate and close values. -/
theorem stringify_head (v : Json) :
    ∃ c r, stringify v = c :: r ∧ isWs c = false ∧ c ≠ ']' ∧ c ≠ '}' := by
  cases v with
  | null | str | arr | obj => exact ⟨_, _, rfl, by decide, by decide, by decide⟩
  | bool b =>
    cases b with
    | false => exact ⟨_, _, rfl, by decide, by decide, by decide⟩
    | true => exact ⟨_, _, rfl, by decide, by decide, by decide⟩
  | num n =>
    obtain ⟨c, r, htext, hc⟩ := n.head
    exact ⟨c, r, htext, isWs_of_isNumberChar hc, ne_of_isNumberChar hc (by decide),
      ne_of_isNumberChar hc (by decide)⟩

/-! ### Numbers -/

variable {rest : List Char}

theorem takeWhile_number (n : NumberText) (hrest : Follows rest) :
    (n.text ++ rest).takeWhile isNumberChar = n.text ∧
      (n.text ++ rest).dropWhile isNumberChar = rest := by
  have hstop : rest.takeWhile isNumberChar = [] ∧ rest.dropWhile isNumberChar = rest := by
    cases rest with
    | nil => exact ⟨rfl, rfl⟩
    | cons c r =>
      have hc : ¬ isNumberChar c = true := by
        rw [hrest c rfl]
        exact Bool.false_ne_true
      exact ⟨takeWhile_cons_of_neg hc, dropWhile_cons_of_neg hc⟩
  rw [takeWhile_append_of_pos n.all, dropWhile_append_of_pos n.all, hstop.1, hstop.2, append_nil]
  exact ⟨rfl, rfl⟩

theorem parseNumber_text (n : NumberText) (hrest : Follows rest) :
    parseNumber (n.text ++ rest) = some (.num n, rest) := by
  obtain ⟨htake, hdrop⟩ := takeWhile_number n hrest
  unfold parseNumber
  simp only [htake, hdrop, n.valid, dif_pos]

/-! ### Lists -/

section Lists

variable {α : Type} {item : List Char → Option (α × List Char)} {print : α → List Char}
  {close : Char}

/-- Further items of a list, each after its comma. -/
def printMore (print : α → List Char) (xs : List α) : List Char :=
  xs.flatMap fun x => ',' :: print x

theorem parseMany_items (hcomma : close ≠ ',') (hws : isWs close = false)
    (hnumber : isNumberChar close = false) (xs : List α) :
    ∀ (x : α) (fuel : ℕ) (rest : List Char), xs.length < fuel →
      (∀ y ∈ x :: xs, ∀ rest, Follows rest → item (print y ++ rest) = some (y, rest)) →
      parseMany item close fuel (print x ++ (printMore print xs ++ close :: rest)) =
        some (x :: xs, rest) := by
  induction xs with
  | nil =>
    intro x fuel rest hfuel hitems
    obtain ⟨fuel, rfl⟩ := Nat.exists_eq_succ_of_ne_zero (Nat.ne_of_gt hfuel)
    have hitem := hitems x (.head _) (close :: rest) (follows_cons hnumber rest)
    simp only [parseMany, printMore, flatMap_nil, nil_append, hitem,
      bind_eq_bind, bind_some, skipWs_cons hws, if_neg hcomma, if_pos]
    rfl
  | cons y xs ih =>
    intro x fuel rest hfuel hitems
    obtain ⟨fuel, rfl⟩ := Nat.exists_eq_succ_of_ne_zero (Nat.ne_of_gt (Nat.zero_lt_of_lt hfuel))
    have hitem := hitems x (.head _)
      (',' :: (print y ++ (printMore print xs ++ close :: rest)))
      (follows_cons (by decide) _)
    have hrest := ih y fuel rest (Nat.lt_of_succ_lt_succ hfuel) fun z hz =>
      hitems z (mem_cons_of_mem x hz)
    have hprint : printMore print (y :: xs) = ',' :: (print y ++ printMore print xs) := by
      rw [printMore, flatMap_cons, cons_append]
      rfl
    rw [hprint, cons_append, append_assoc, parseMany, hitem]
    simp only [bind_eq_bind, bind_some, skipWs_cons (c := ',') (by decide), if_pos, hrest]
    rfl

/-- The items of a list, separated by commas. -/
def printList (print : α → List Char) : List α → List Char
  | [] => []
  | x :: xs => print x ++ printMore print xs

theorem length_le_printMore (xs : List α) : xs.length ≤ (printMore print xs).length := by
  induction xs with
  | nil => exact Nat.le_refl 0
  | cons x xs ih =>
    rw [printMore, flatMap_cons, length_append, length_cons, length_cons]
    rw [printMore] at ih
    omega

theorem parseList_items (hcomma : close ≠ ',') (hws : isWs close = false)
    (hnumber : isNumberChar close = false) {xs : List α} (rest : List Char)
    (hitems : ∀ x ∈ xs, ∀ rest, Follows rest → item (print x ++ rest) = some (x, rest))
    (hheads : ∀ x ∈ xs, ∃ c r, print x = c :: r ∧ isWs c = false ∧ c ≠ close) :
    parseList item close (printList print xs ++ close :: rest) = some (xs, rest) := by
  cases xs with
  | nil =>
    simp [parseList, printList, skipWs_cons hws]
  | cons x xs =>
    have hlength : xs.length < (printList print (x :: xs) ++ close :: rest).length := by
      have hmore : xs.length ≤ (printMore print xs).length := length_le_printMore xs
      rw [printList, append_assoc, length_append, length_append, length_cons]
      omega
    have hmany := parseMany_items hcomma hws hnumber xs x _ rest hlength hitems
    obtain ⟨c, r, hprint, hc, hclose⟩ := hheads x (.head _)
    have hskip : skipWs (printList print (x :: xs) ++ close :: rest) =
        c :: (r ++ printMore print xs ++ close :: rest) := by
      rw [printList, hprint, cons_append, cons_append, skipWs_cons hc]
    unfold parseList
    rw [hskip]
    dsimp only
    rw [if_neg hclose]
    rw [← append_assoc] at hmany
    exact hmany

end Lists

theorem stringifyMoreElems_eq (xs : List Json) :
    stringifyMoreElems xs = printMore stringify xs := by
  induction xs with
  | nil => rfl
  | cons x xs ih => exact congrArg (fun t => ',' :: (stringify x ++ t)) ih

theorem stringifyElems_eq (xs : List Json) : stringifyElems xs = printList stringify xs := by
  cases xs with
  | nil => rfl
  | cons x xs => exact congrArg (stringify x ++ ·) (stringifyMoreElems_eq xs)

theorem stringifyMoreFields_eq (fs : List (List Char × Json)) :
    stringifyMoreFields fs = printMore stringifyField fs := by
  induction fs with
  | nil => rfl
  | cons f fs ih => exact congrArg (fun t => ',' :: (stringifyField f ++ t)) ih

theorem stringifyFields_eq (fs : List (List Char × Json)) :
    stringifyFields fs = printList stringifyField fs := by
  cases fs with
  | nil => rfl
  | cons f fs => exact congrArg (stringifyField f ++ ·) (stringifyMoreFields_eq fs)

theorem stringifyField_head (f : List Char × Json) :
    ∃ c r, stringifyField f = c :: r ∧ isWs c = false ∧ c ≠ '}' := by
  obtain ⟨k, v⟩ := f
  refine ⟨'"', k.flatMap escapeChar ++ ['"'] ++ ':' :: stringify v, ?_, by decide, by decide⟩
  rfl

theorem parseField_field {value : List Char → Option (Json × List Char)} (f : List Char × Json)
    (hvalue : value (stringify f.2 ++ rest) = some (f.2, rest)) :
    parseField value (stringifyField f ++ rest) = some (f, rest) := by
  obtain ⟨k, v⟩ := f
  have htext : stringifyField (k, v) ++ rest =
      '"' :: (k.flatMap escapeChar ++ '"' :: ':' :: (stringify v ++ rest)) := by
    rw [stringifyField_mk]
    simp [quote]
  rw [htext]
  unfold parseField
  rw [skipWs_cons (by decide)]
  simp only [parseChars_quoted, bind_eq_bind, bind_some, skipWs_cons (c := ':') (by decide), hvalue]
  rfl

/-! ### Values -/

theorem parseValue_numberChar {s r : List Char} (hskip : skipWs s = c :: r)
    (hc : isNumberChar c = true) (fuel : ℕ) : parseValue (fuel + 1) s = parseNumber (c :: r) := by
  have hne : ∀ d, isNumberChar d = false → c ≠ d := fun d hd => ne_of_isNumberChar hc hd
  rw [parseValue, hskip]
  split
  case h_7 => rfl
  all_goals
    rename_i heq
    exact absurd (List.cons.inj heq).1 (hne _ (by decide))

theorem parseValue_number (n : NumberText) (fuel : ℕ) (hrest : Follows rest) :
    parseValue (fuel + 1) (n.text ++ rest) = some (.num n, rest) := by
  obtain ⟨c, r, htext, hc⟩ := n.head
  have hnumber := parseNumber_text n hrest
  rw [htext, cons_append] at hnumber ⊢
  exact (parseValue_numberChar (skipWs_cons (isWs_of_isNumberChar hc) _) hc fuel).trans hnumber

theorem parseValue_string (s : List Char) (fuel : ℕ) (rest : List Char) :
    parseValue (fuel + 1) (stringify (.str s) ++ rest) = some (.str s, rest) := by
  have htext : stringify (.str s) ++ rest = '"' :: (s.flatMap escapeChar ++ '"' :: rest) := by
    rw [stringify_str, quote]
    simp
  rw [htext, parseValue, skipWs_cons (by decide)]
  simp only [parseChars_quoted, bind_eq_bind, bind_some]
  rfl

theorem length_le_printList {α : Type} {print : α → List Char} {x : α} {xs : List α}
    (hx : x ∈ xs) : (print x).length ≤ (printList print xs).length := by
  have hmore : ∀ ys : List α, x ∈ ys → (print x).length ≤ (printMore print ys).length := by
    intro ys hys
    induction ys with
    | nil => cases hys
    | cons y ys ih =>
      rw [printMore, flatMap_cons, length_append, length_cons]
      rw [printMore] at ih
      cases hys with
      | head => omega
      | tail _ hys =>
        have := ih hys
        omega
  cases xs with
  | nil => cases hx
  | cons y ys =>
    rw [printList, length_append]
    cases hx with
    | head => omega
    | tail _ hx =>
      have := hmore ys hx
      omega

/-- **A value at the head of a text.** -/
theorem parseValue_stringify (v : Json) (fuel : ℕ) (hfuel : (stringify v).length < fuel)
    (hrest : Follows rest) :
    parseValue fuel (stringify v ++ rest) = some (v, rest) := by
  induction fuel generalizing v rest with
  | zero => exact absurd hfuel (Nat.not_lt_zero _)
  | succ fuel ih =>
    cases v with
    | null => rfl
    | bool b => cases b <;> rfl
    | num n =>
      rw [stringify_num]
      exact parseValue_number n fuel hrest
    | str s => exact parseValue_string s fuel rest
    | arr xs =>
      have htext : stringify (.arr xs) ++ rest =
          '[' :: (printList stringify xs ++ ']' :: rest) := by
        rw [stringify_arr, stringifyElems_eq]
        simp
      have hlength : (stringify (.arr xs)).length = (printList stringify xs).length + 2 := by
        rw [stringify_arr, stringifyElems_eq]
        simp
      have hitems : ∀ x ∈ xs, ∀ rest, Follows rest →
          parseValue fuel (stringify x ++ rest) = some (x, rest) := by
        intro x hx rest hrest
        have hbound : (stringify x).length ≤ (printList stringify xs).length :=
          length_le_printList hx
        exact ih x (by omega) hrest
      have hheads : ∀ x ∈ xs, ∃ c r, stringify x = c :: r ∧ isWs c = false ∧ c ≠ ']' := by
        intro x _
        obtain ⟨c, r, hprint, hc, hclose, -⟩ := stringify_head x
        exact ⟨c, r, hprint, hc, hclose⟩
      have hlist : parseList (parseValue fuel) ']'
          (printList stringify xs ++ ']' :: rest) = some (xs, rest) :=
        parseList_items (by decide) (by decide) (by decide) rest hitems hheads
      rw [htext, parseValue, skipWs_cons (by decide)]
      simp only [hlist, bind_eq_bind, bind_some]
      rfl
    | obj fs =>
      have htext : stringify (.obj fs) ++ rest =
          '{' :: (printList stringifyField fs ++ '}' :: rest) := by
        rw [stringify_obj, stringifyFields_eq]
        simp
      have hlength : (stringify (.obj fs)).length = (printList stringifyField fs).length + 2 := by
        rw [stringify_obj, stringifyFields_eq]
        simp
      have hitems : ∀ f ∈ fs, ∀ rest, Follows rest →
          parseField (parseValue fuel) (stringifyField f ++ rest) = some (f, rest) := by
        intro f hf rest hrest
        have hbound : (stringifyField f).length ≤ (printList stringifyField fs).length :=
          length_le_printList hf
        have hvalue : (stringify f.2).length ≤ (stringifyField f).length := by
          rw [stringifyField_mk, length_append, length_cons]
          omega
        exact parseField_field f (ih f.2 (by omega) hrest)
      have hlist : parseList (parseField (parseValue fuel)) '}'
          (printList stringifyField fs ++ '}' :: rest) = some (fs, rest) :=
        parseList_items (by decide) (by decide) (by decide) rest hitems
          fun f _ => stringifyField_head f
      rw [htext, parseValue, skipWs_cons (by decide)]
      simp only [hlist, bind_eq_bind, bind_some]
      rfl

/-- **A whole text.** -/
theorem parse_stringify (v : Json) : parse (stringify v) = some v := by
  have hvalue := parseValue_stringify v ((stringify v).length + 1) (by omega) follows_nil
  rw [append_nil] at hvalue
  rw [parse, hvalue]
  rfl

end LibJson
