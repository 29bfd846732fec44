/-
**Texts that break off.**

A value that is read at the head of a text is read there whatever follows, unless it is a number
that the text ends with.  So a printed value of which the end is missing is not read: at most a
number is read as another number.  What is read as a value ends in an ASCII character, and what is
printed has no control characters.

Main results:

* `LibJson.parseValue_append` — **what follows does not matter**, nor more fuel;
* `LibJson.parse_prefix` — a printed value that breaks off;
* `LibJson.parse_brace` — what starts with a brace is an object;
* `LibJson.parse_ascii` — how the text of a value ends;
* `LibJson.stringify_printable` — no control characters.
-/

import Mathlib.Data.List.TakeWhile
import NoriCode.LibJsonRoundTrip

namespace LibJson

open List Option

/-! ### What follows -/

variable {s r : List Char} {c : Char}

theorem skipWs_append (h : skipWs s = c :: r) (t : List Char) :
    skipWs (s ++ t) = c :: (r ++ t) := by
  unfold skipWs at h ⊢
  rw [dropWhile_append, h]
  rfl

/-- What has been read between two places is not empty and ends in an ASCII character. -/
def Ends (s r : List Char) : Prop := ∃ u c, s = u ++ c :: r ∧ c.toNat < 0x80

theorem ends_head (hc : c.toNat < 0x80) (r : List Char) : Ends (c :: r) r := ⟨[], c, rfl, hc⟩

theorem Ends.front (h : Ends s r) (u : List Char) : Ends (u ++ s) r := by
  obtain ⟨u', c, rfl, hc⟩ := h
  exact ⟨u ++ u', c, by rw [append_assoc], hc⟩

theorem Ends.cons (h : Ends s r) (c : Char) : Ends (c :: s) r := h.front [c]

theorem Ends.trans {t : List Char} (h : Ends s r) (ht : Ends r t) : Ends s t := by
  obtain ⟨u, c, rfl, -⟩ := h
  rw [List.append_cons]
  exact ht.front _

theorem Ends.skip {t : List Char} (h : skipWs s = t) (ht : Ends t r) : Ends s r := by
  rw [← takeWhile_append_dropWhile (p := isWs) (l := s)]
  rw [← h] at ht
  exact ht.front _

theorem parseUnits_append {units : List ℕ} (h : parseUnits s = some (units, r)) :
    Ends s r ∧ ∀ t, parseUnits (s ++ t) = some (units, r ++ t) := by
  induction s using parseUnits.induct generalizing units with
  | case1 => cases h
  | case2 r' =>
    rw [parseUnits_quote] at h
    cases h
    exact ⟨ends_head (by decide) _, fun _ => parseUnits_quote _⟩
  | case3 a b c d r' ih =>
    rw [parseUnits_hex] at h
    obtain ⟨n, hn, hmap⟩ := bind_eq_some_iff.1 h
    obtain ⟨⟨units', r''⟩, hrest, hval⟩ := map_eq_some_iff.1 hmap
    obtain ⟨rfl, rfl⟩ := Prod.mk.inj hval
    obtain ⟨hends, happend⟩ := ih hrest
    refine ⟨hends.front ['\\', 'u', a, b, c, d], fun t => ?_⟩
    simp [parseUnits_hex, hn, happend]
  | case4 e r' hu ih =>
    cases he : unescape e with
    | none =>
      rw [parseUnits_backslash hu, he] at h
      cases h
    | some c =>
      have hne : e ≠ 'u' := by
        rintro rfl
        cases he
      rw [parseUnits_escape hne he, map_eq_some_iff] at h
      obtain ⟨⟨units', r''⟩, hrest, hval⟩ := h
      obtain ⟨rfl, rfl⟩ := Prod.mk.inj hval
      obtain ⟨hends, happend⟩ := ih hrest
      refine ⟨hends.front ['\\', e], fun t => ?_⟩
      rw [cons_append, cons_append, parseUnits_escape hne he, happend]
      rfl
  | case5 c r' hquote hu he hc =>
    rw [parseUnits_cons hquote he, if_pos hc] at h
    cases h
  | case6 c r' hquote hu he hc ih =>
    obtain ⟨hbackslash, hcontrol⟩ := not_or.1 hc
    rw [parseUnits_plain hquote hbackslash hcontrol, map_eq_some_iff] at h
    obtain ⟨⟨units', r''⟩, hrest, hval⟩ := h
    obtain ⟨rfl, rfl⟩ := Prod.mk.inj hval
    obtain ⟨hends, happend⟩ := ih hrest
    refine ⟨hends.cons c, fun t => ?_⟩
    rw [cons_append, parseUnits_plain hquote hbackslash hcontrol, happend]
    rfl

theorem parseChars_append {chars : List Char} (h : parseChars s = some (chars, r)) :
    Ends s r ∧ ∀ t, parseChars (s ++ t) = some (chars, r ++ t) := by
  unfold parseChars at h ⊢
  simp only [Option.bind_eq_bind, Option.pure_def, Option.bind_eq_some_iff] at h
  obtain ⟨⟨units, r'⟩, hunits, hval⟩ := h
  cases hval
  obtain ⟨hends, happend⟩ := parseUnits_append hunits
  refine ⟨hends, fun t => ?_⟩
  rw [happend]
  rfl

variable {v : Json}

/-- A number consists of ASCII characters that are no white space and no control characters. -/
theorem isNumberChar_range (h : isNumberChar c = true) : 0x20 ≤ c.toNat ∧ c.toNat < 0x80 := by
  simp only [isNumberChar, Char.isDigit, Bool.or_eq_true, Bool.and_eq_true, beq_iff_eq,
    decide_eq_true_eq] at h
  obtain ((((⟨hlow, hhigh⟩ | rfl) | rfl) | rfl) | rfl) | rfl := h
  · exact ⟨Nat.le_trans (by decide) hlow, Nat.lt_of_le_of_lt hhigh (by decide)⟩
  all_goals decide

theorem parseNumber_append (h : parseNumber s = some (v, r))
    (hr : r ≠ []) (t : List Char) : parseNumber (s ++ t) = some (v, r ++ t) := by
  unfold parseNumber at h ⊢
  split_ifs at h with hvalid
  cases h
  have htake : (s ++ t).takeWhile isNumberChar = s.takeWhile isNumberChar := by
    rw [takeWhile_append, if_neg]
    intro hlength
    have hparts := congrArg List.length (takeWhile_append_dropWhile (p := isNumberChar) (l := s))
    rw [length_append, hlength] at hparts
    exact hr (length_eq_zero_iff.1 (by omega))
  have hdrop : (s ++ t).dropWhile isNumberChar = s.dropWhile isNumberChar ++ t := by
    rw [dropWhile_append, if_neg (by rwa [List.isEmpty_iff])]
  simp [htake, hdrop, hvalid]

theorem parseNumber_head (h : parseNumber s = some (v, r)) :
    ∃ c r', s = c :: r' ∧ isNumberChar c = true := by
  unfold parseNumber at h
  split_ifs at h with hvalid
  obtain ⟨c, r', htext, hc⟩ := NumberText.head ⟨s.takeWhile isNumberChar, hvalid⟩
  obtain ⟨u, hu⟩ := takeWhile_prefix isNumberChar (l := s)
  refine ⟨c, r' ++ u, ?_, hc⟩
  rw [← hu]
  exact congrArg (· ++ u) htext

theorem parseNumber_ends (h : parseNumber s = some (v, r)) : Ends s r := by
  unfold parseNumber at h
  split_ifs at h with hvalid
  obtain ⟨-, rfl⟩ := Prod.mk.inj (some.inj h)
  obtain ⟨c, r', htext, -⟩ := NumberText.head ⟨s.takeWhile isNumberChar, hvalid⟩
  have hne : s.takeWhile isNumberChar ≠ [] := fun hnil => by
    have hcons : s.takeWhile isNumberChar = c :: r' := htext
    rw [hnil] at hcons
    cases hcons
  have hlast := NumberText.all ⟨s.takeWhile isNumberChar, hvalid⟩ _ (getLast_mem hne)
  refine ⟨(s.takeWhile isNumberChar).dropLast, (s.takeWhile isNumberChar).getLast hne, ?_,
    (isNumberChar_range hlast).2⟩
  rw [List.append_cons, dropLast_append_getLast, takeWhile_append_dropWhile]

/-! ### Lists -/

section Lists

variable {α : Type} {item item' : List Char → Option (α × List Char)} {close : Char}

/-- What the first parser reads in front of something else, the second one reads whatever
follows. -/
def Extends (item item' : List Char → Option (α × List Char)) : Prop :=
  ∀ s x r, item s = some (x, r) →
    Ends s r ∧ (r ≠ [] → ∀ t, item' (s ++ t) = some (x, r ++ t))

variable {s r : List Char}

theorem skipWs_ne_nil {c : Char} (h : skipWs s = c :: r) : s ≠ [] := by
  rintro rfl
  cases h

theorem parseMany_append (hclose : close.toNat < 0x80) (hitem : Extends item item')
    {fuel fuel' : ℕ} (hfuel : fuel ≤ fuel') {xs : List α}
    (h : parseMany item close fuel s = some (xs, r)) :
    Ends s r ∧ ∀ t, parseMany item' close fuel' (s ++ t) = some (xs, r ++ t) := by
  induction fuel generalizing fuel' s xs with
  | zero => cases h
  | succ fuel ih =>
    obtain ⟨fuel', rfl⟩ := Nat.exists_eq_succ_of_ne_zero (Nat.ne_of_gt (Nat.lt_of_lt_of_le
      (Nat.succ_pos fuel) hfuel))
    rw [parseMany] at h
    simp only [Option.bind_eq_bind, Option.bind_eq_some_iff] at h
    obtain ⟨⟨x, r₁⟩, hx, hmore⟩ := h
    obtain ⟨hends, happend⟩ := hitem s x r₁ hx
    cases hskip : skipWs r₁ with
    | nil => simp [hskip] at hmore
    | cons c r₂ =>
      simp only [hskip] at hmore
      simp only [parseMany, happend (skipWs_ne_nil hskip), Option.bind_eq_bind,
        Option.bind_some, skipWs_append hskip]
      split_ifs at hmore with hcomma hend
      · simp only [Option.bind_eq_some_iff, Option.pure_def] at hmore
        obtain ⟨⟨ys, r₃⟩, hys, hval⟩ := hmore
        cases hval
        obtain ⟨hbehind, hrest⟩ := ih (Nat.le_of_succ_le_succ hfuel) hys
        refine ⟨hends.trans (Ends.skip hskip (hbehind.cons c)), fun t => ?_⟩
        rw [if_pos hcomma, hrest]
        rfl
      · cases hmore
        refine ⟨hends.trans (Ends.skip hskip (ends_head (hend ▸ hclose) _)), fun t => ?_⟩
        rw [if_neg hcomma, if_pos hend]
        rfl

theorem parseList_append (hclose : close.toNat < 0x80) (hitem : Extends item item') {xs : List α}
    (h : parseList item close s = some (xs, r)) :
    Ends s r ∧ ∀ t, parseList item' close (s ++ t) = some (xs, r ++ t) := by
  unfold parseList at h ⊢
  cases hskip : skipWs s with
  | nil => simp [hskip] at h
  | cons c r₁ =>
    simp only [hskip] at h
    simp only [skipWs_append hskip]
    split_ifs at h ⊢ with hend
    · cases h
      exact ⟨Ends.skip hskip (ends_head (hend ▸ hclose) _), fun _ => rfl⟩
    · have hends := (parseMany_append hclose hitem le_rfl h).1
      exact ⟨hends, fun t => (parseMany_append hclose hitem
        (by rw [length_append]; exact Nat.le_add_right _ _) h).2 t⟩

end Lists

theorem parseField_append {value value' : List Char → Option (Json × List Char)}
    (hvalue : Extends value value') : Extends (parseField value) (parseField value') := by
  intro s f r h
  unfold parseField at h ⊢
  split at h
  case h_2 => cases h
  case h_1 r₁ hquote =>
    simp only [Option.bind_eq_bind, Option.bind_eq_some_iff] at h
    obtain ⟨⟨k, r₂⟩, hk, h⟩ := h
    split at h
    case h_2 => cases h
    case h_1 r₃ hcolon =>
      simp only [Option.bind_eq_some_iff, Option.pure_def] at h
      obtain ⟨⟨v, r₄⟩, hv, hval⟩ := h
      cases hval
      obtain ⟨hkey, hchars⟩ := parseChars_append hk
      obtain ⟨hends, happend⟩ := hvalue r₃ v r₄ hv
      have hbehind : Ends r₂ r₄ := Ends.skip hcolon (hends.cons ':')
      refine ⟨Ends.skip hquote ((hkey.trans hbehind).cons '"'), fun hr t => ?_⟩
      simp [skipWs_append hquote, hchars, skipWs_append hcolon, happend hr t]

/-! ### Values -/

/-- How a value has been read, by what stands behind the white space. -/
inductive ParsedValue (fuel : ℕ) (s : List Char) : Json → List Char → Prop
  | null {r : List Char} (hskip : skipWs s = 'n' :: 'u' :: 'l' :: 'l' :: r) :
      ParsedValue fuel s .null r
  | true {r : List Char} (hskip : skipWs s = 't' :: 'r' :: 'u' :: 'e' :: r) :
      ParsedValue fuel s (.bool true) r
  | false {r : List Char} (hskip : skipWs s = 'f' :: 'a' :: 'l' :: 's' :: 'e' :: r) :
      ParsedValue fuel s (.bool false) r
  | str {chars r r' : List Char} (hskip : skipWs s = '"' :: r)
      (hchars : parseChars r = some (chars, r')) : ParsedValue fuel s (.str chars) r'
  | arr {xs : List Json} {r r' : List Char} (hskip : skipWs s = '[' :: r)
      (hxs : parseList (parseValue fuel) ']' r = some (xs, r')) : ParsedValue fuel s (.arr xs) r'
  | obj {fs : List (List Char × Json)} {r r' : List Char} (hskip : skipWs s = '\x7b' :: r)
      (hfs : parseList (parseField (parseValue fuel)) '\x7d' r = some (fs, r')) :
      ParsedValue fuel s (.obj fs) r'
  | num {n : NumberText} {r : List Char} (hnumber : parseNumber (skipWs s) = some (.num n, r)) :
      ParsedValue fuel s (.num n) r

variable {fuel : ℕ}

theorem parsedValue (h : parseValue (fuel + 1) s = some (v, r)) : ParsedValue fuel s v r := by
  rw [parseValue] at h
  split at h
  case h_1 r₁ hskip =>
    cases h
    exact .null hskip
  case h_2 r₁ hskip =>
    cases h
    exact .true hskip
  case h_3 r₁ hskip =>
    cases h
    exact .false hskip
  case h_4 r₁ hskip =>
    obtain ⟨⟨chars, r₂⟩, hchars, hval⟩ := bind_eq_some_iff.1 h
    cases hval
    exact .str hskip hchars
  case h_5 r₁ hskip =>
    obtain ⟨⟨xs, r₂⟩, hxs, hval⟩ := bind_eq_some_iff.1 h
    cases hval
    exact .arr hskip hxs
  case h_6 r₁ hskip =>
    obtain ⟨⟨fs, r₂⟩, hfs, hval⟩ := bind_eq_some_iff.1 h
    cases hval
    exact .obj hskip hfs
  case h_7 =>
    have hnumber := h
    unfold parseNumber at h
    split_ifs at h with hvalid
    cases h
    exact .num hnumber

/-- **What follows a value does not matter**, nor more fuel; a number has to be followed by
something. -/
theorem parseValue_append {fuel' : ℕ} (hfuel : fuel ≤ fuel')
    (h : parseValue fuel s = some (v, r)) : Ends s r ∧ ((r ≠ [] ∨ ∀ n, v ≠ .num n) →
      ∀ t, parseValue fuel' (s ++ t) = some (v, r ++ t)) := by
  induction fuel generalizing fuel' s r v with
  | zero => cases h
  | succ fuel ih =>
    obtain ⟨fuel', rfl⟩ := Nat.exists_eq_succ_of_ne_zero (Nat.ne_of_gt (Nat.lt_of_lt_of_le
      (Nat.succ_pos fuel) hfuel))
    have hitem : Extends (parseValue fuel) (parseValue fuel') := fun s x r hx =>
      (ih (Nat.le_of_succ_le_succ hfuel) hx).imp_right fun happend hr => happend (.inl hr)
    cases parsedValue h with
    | null hskip | true hskip =>
      refine ⟨Ends.skip hskip ((ends_head (by decide) _).front [_, _, _]), fun _ t => ?_⟩
      rw [parseValue, skipWs_append hskip]
      rfl
    | false hskip =>
      refine ⟨Ends.skip hskip ((ends_head (by decide) _).front [_, _, _, _]), fun _ t => ?_⟩
      rw [parseValue, skipWs_append hskip]
      rfl
    | str hskip hchars =>
      obtain ⟨hends, happend⟩ := parseChars_append hchars
      refine ⟨Ends.skip hskip (hends.cons _), fun _ t => ?_⟩
      rw [parseValue, skipWs_append hskip]
      simp [happend]
    | arr hskip hxs =>
      obtain ⟨hends, happend⟩ := parseList_append (by decide) hitem hxs
      refine ⟨Ends.skip hskip (hends.cons _), fun _ t => ?_⟩
      rw [parseValue, skipWs_append hskip]
      simp [happend]
    | obj hskip hfs =>
      obtain ⟨hends, happend⟩ := parseList_append (by decide) (parseField_append hitem) hfs
      refine ⟨Ends.skip hskip (hends.cons _), fun _ t => ?_⟩
      rw [parseValue, skipWs_append hskip]
      simp [happend]
    | num hnumber =>
      refine ⟨Ends.skip rfl (parseNumber_ends hnumber), fun hr t => ?_⟩
      obtain ⟨c, r₁, hskip, hc⟩ := parseNumber_head hnumber
      have happend := parseNumber_append hnumber (hr.resolve_right fun hne => hne _ rfl) t
      rw [hskip, List.cons_append] at happend
      exact (parseValue_numberChar (skipWs_append hskip t) hc fuel').trans happend

/-! ### Printed values that break off -/

/-- The text of a number that is read is a part of what it is read from. -/
theorem parseValue_num {n : NumberText}
    (h : parseValue fuel s = some (.num n, r)) : n.text.length ≤ s.length := by
  cases fuel with
  | zero => cases h
  | succ fuel =>
    cases parsedValue h with
    | num hnumber =>
      unfold parseNumber at hnumber
      split_ifs at hnumber with hvalid
      obtain rfl := Json.num.inj (Prod.mk.inj (some.inj hnumber)).1
      exact Nat.le_trans (takeWhile_sublist _).length_le (dropWhile_sublist _).length_le

/-- **A printed value of which the end is missing** is not read; at most, a number is read as
another number. -/
theorem parse_prefix {w : Json} {p q : List Char} (hv : stringify v = p ++ q) (hq : q ≠ [])
    (h : parse p = some w) : (∃ n, w = .num n) ∧ w ≠ v := by
  unfold parse at h
  simp only [bind_eq_bind, bind_eq_some_iff] at h
  obtain ⟨⟨w', r⟩, hw, hval⟩ := h
  split_ifs at hval with hskip
  obtain rfl := some.inj hval
  have hnum : ∃ n, w' = .num n := by
    -- anything else would be read in front of the missing end as well, which would be left over
    by_contra hother
    have hread := parseValue_stringify v ((stringify v).length + 1) (Nat.lt_succ_self _) follows_nil
    rw [append_nil, hv] at hread
    have hlength : p.length + 1 ≤ (p ++ q).length + 1 := by
      rw [length_append]
      omega
    have hmore := (parseValue_append hlength hw).2 (.inr fun n hn => hother ⟨n, hn⟩) q
    rw [hread] at hmore
    exact hq (append_eq_nil_iff.1 (Prod.mk.inj (some.inj hmore)).2.symm).2
  obtain ⟨n, rfl⟩ := hnum
  refine ⟨⟨n, rfl⟩, ?_⟩
  rintro rfl
  have hpart := parseValue_num hw
  have hwhole := congrArg List.length hv
  have hpos := length_pos_iff.2 hq
  rw [stringify_num, length_append] at hwhole
  omega

theorem parse_brace {s : List Char} {v : Json} (h : parse ('{' :: s) = some v) :
    ∃ fields, v = .obj fields := by
  unfold parse at h
  simp only [Option.bind_eq_bind, Option.bind_eq_some_iff] at h
  obtain ⟨⟨w, r⟩, hw, hval⟩ := h
  split_ifs at hval with hskip
  cases hval
  have hhead : skipWs ('{' :: s) = '{' :: s := rfl
  rw [parseValue, hhead] at hw
  simp only [Option.bind_eq_bind, Option.bind_eq_some_iff, Option.pure_def] at hw
  obtain ⟨⟨fields, r'⟩, -, hobj⟩ := hw
  exact ⟨fields, (Prod.mk.inj (some.inj hobj)).1.symm⟩

/-! ### How a value ends -/

/-- **The text of a value ends in an ASCII character.** -/
theorem parse_ascii {p : List Char} (h : parse (p ++ [c]) = some v) : c.toNat < 0x80 := by
  unfold parse at h
  simp only [bind_eq_bind, bind_eq_some_iff] at h
  obtain ⟨⟨w, r⟩, hw, hval⟩ := h
  split_ifs at hval with hskip
  obtain ⟨u, d, htext, hd⟩ := (parseValue_append (Nat.le_refl _) hw).1
  have hws : ∀ e ∈ r, isWs e = true := dropWhile_eq_nil_iff.1 hskip
  rcases eq_nil_or_concat r with rfl | ⟨r', e, rfl⟩
  · obtain ⟨-, hlast⟩ := append_inj' htext rfl
    rwa [(List.cons.inj hlast).1]
  · rw [concat_eq_append, ← cons_append, ← append_assoc] at htext
    obtain ⟨-, hlast⟩ := append_inj' htext rfl
    have he := hws e (by simp)
    rw [(List.cons.inj hlast).1]
    simp only [isWs, Bool.or_eq_true, beq_iff_eq] at he
    obtain ((rfl | rfl) | rfl) | rfl := he
    all_goals decide

/-! ### No control characters -/

theorem hexDigit_printable : ∀ n < 16, 0x20 ≤ (hexDigit n).toNat := by decide

theorem escapeChar_printable (c : Char) : ∀ d ∈ escapeChar c, 0x20 ≤ d.toNat := by
  obtain ⟨e, heq, -, -, he⟩ | ⟨hcontrol, heq⟩ | ⟨-, -, hcontrol, heq⟩ := escapeChar_cases c
  · rw [heq]
    exact forall_mem_cons.2 ⟨by decide, forall_mem_singleton.2 he⟩
  · have hhigh := hexDigit_printable (c.toNat / 16) (by omega)
    have hlow := hexDigit_printable (c.toNat % 16) (Nat.mod_lt _ (by decide))
    simp only [heq, forall_mem_cons, not_mem_nil, false_imp_iff, implies_true, hhigh,
      hlow, and_true]
    decide
  · rw [heq]
    exact forall_mem_singleton.2 (Nat.not_lt.1 hcontrol)

theorem quote_printable (s : List Char) : ∀ d ∈ quote s, 0x20 ≤ d.toNat := by
  intro d hd
  unfold quote at hd
  rw [cons_append, mem_cons, mem_append, mem_flatMap, mem_singleton] at hd
  obtain rfl | ⟨c, -, hc⟩ | rfl := hd
  · decide
  · exact escapeChar_printable c d hc
  · decide

theorem printList_printable {α : Type} {print : α → List Char} {xs : List α}
    (h : ∀ x ∈ xs, ∀ d ∈ print x, 0x20 ≤ d.toNat) :
    ∀ d ∈ printList print xs, 0x20 ≤ d.toNat := by
  have hmore : ∀ ys : List α, (∀ y ∈ ys, ∀ d ∈ print y, 0x20 ≤ d.toNat) →
      ∀ d ∈ printMore print ys, 0x20 ≤ d.toNat := by
    intro ys hys d hd
    obtain ⟨y, hy, hd⟩ := mem_flatMap.1 hd
    cases mem_cons.1 hd with
    | inl hcomma =>
      rw [hcomma]
      decide
    | inr hd => exact hys y hy d hd
  cases xs with
  | nil => exact fun d hd => absurd hd not_mem_nil
  | cons x xs =>
    intro d hd
    cases mem_append.1 hd with
    | inl hx => exact h x (.head _) d hx
    | inr hxs => exact hmore xs (fun y hy => h y (.tail _ hy)) d hxs

/-- **A printed value contains no control characters.** -/
theorem stringify_printable (v : Json) : ∀ d ∈ stringify v, 0x20 ≤ d.toNat := by
  -- by induction on the length of the text
  induction hlength : (stringify v).length using Nat.strongRecOn generalizing v with
  | _ length ih =>
    cases v with
    | null => exact forall_iff_forall_mem.1 (by decide)
    | bool b => cases b <;> exact forall_iff_forall_mem.1 (by decide)
    | num n => exact fun d hd => (isNumberChar_range (n.all d hd)).1
    | str s => exact quote_printable s
    | arr xs =>
      have hitems : ∀ d ∈ printList stringify xs, 0x20 ≤ d.toNat := by
        refine printList_printable fun x hx => ih _ ?_ x rfl
        have hbound : (stringify x).length ≤ (printList stringify xs).length :=
          length_le_printList hx
        rw [stringify_arr, stringifyElems_eq, length_cons, length_append] at hlength
        omega
      rw [stringify_arr, stringifyElems_eq]
      intro d hd
      rw [mem_cons, mem_append, mem_singleton] at hd
      obtain rfl | hd | rfl := hd
      · decide
      · exact hitems d hd
      · decide
    | obj fs =>
      have hitems : ∀ d ∈ printList stringifyField fs, 0x20 ≤ d.toNat := by
        refine printList_printable fun f hf => ?_
        have hbound : (stringifyField f).length ≤ (printList stringifyField fs).length :=
          length_le_printList hf
        rw [stringify_obj, stringifyFields_eq, length_cons, length_append] at hlength
        obtain ⟨k, v⟩ := f
        rw [stringifyField_mk] at hbound ⊢
        rw [length_append, length_cons] at hbound
        have hv : ∀ d ∈ stringify v, 0x20 ≤ d.toNat := ih _ (by omega) v rfl
        intro d hd
        rw [mem_append, mem_cons] at hd
        obtain hd | rfl | hd := hd
        · exact quote_printable k d hd
        · decide
        · exact hv d hd
      rw [stringify_obj, stringifyFields_eq]
      intro d hd
      rw [mem_cons, mem_append, mem_singleton] at hd
      obtain rfl | hd | rfl := hd
      · decide
      · exact hitems d hd
      · decide

end LibJson
