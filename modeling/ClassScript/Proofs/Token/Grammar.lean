import Mathlib.Data.List.TakeWhile
import ClassScript.Token.Segment

/-!
# The token grammar and longest matches

Which texts a kind of segment has is written down on its own, without a word on how the
texts are found (`SegmentKind.Spells`).  A text that no kind has is a mistake.

*Classification.*  A text has at most one kind, and the cut of that text by itself gives
it back whole (`Spells.cut`).

*Growth.*  More text behind never makes a segment shorter (`Segment.cut_within`), as every cut
reads on as far as its class allows.

With both, the cut at the front of a text is at least as long as every matching text
there (`Spells.prefix_cut`), so it is the longest one, or there is none.
-/

namespace ClassScript

/-! ## The grammar -/

/-- The texts of the kinds of segments that are not mistakes. -/
inductive SegmentKind.Spells : SegmentKind → List Char → Prop where
  /-- A symbol or a keyword is what it is spelled like. -/
  | spelled {kind : TokenKind} {text : String} (spelling : kind.spelling? = some text) :
      Spells (.token kind) text.toList
  /-- A name is a word that is not a keyword. -/
  | name {c : Char} {rest : List Char} (first : isWordStart c) (others : ∀ d ∈ rest, isWordPart d)
      (free : ∀ kind : TokenKind, kind.spelling? ≠ some (String.ofList (c :: rest))) :
      Spells (.token .identifier) (c :: rest)
  | whole {digits : List Char} (some : digits ≠ []) (all : ∀ d ∈ digits, isDigit d) :
      Spells (.token .number) digits
  | decimal {whole fraction : List Char}
      (someWhole : whole ≠ []) (allWhole : ∀ d ∈ whole, isDigit d)
      (someFraction : fraction ≠ []) (allFraction : ∀ d ∈ fraction, isDigit d) :
      Spells (.token .number) (whole ++ '.' :: fraction)
  /-- A string has no quote between its quotes. -/
  | string {body : List Char} (inner : ∀ c ∈ body, c ≠ '"') :
      Spells (.token .string) ('"' :: (body ++ ['"']))
  | blank {c : Char} (among : c = ' ' ∨ c = '\t' ∨ c = '\r') : Spells .blank [c]
  | newline : Spells .newline ['\n']
  /-- A comment stays on its line. -/
  | comment {body : List Char} (inner : ∀ c ∈ body, c ≠ '\n') : Spells .comment ('/' :: '/' :: body)

/-- The kinds of segments that stand for a mistake. -/
def SegmentKind.IsMistake (kind : SegmentKind) : Prop := kind = .unterminated ∨ kind = .unexpected

theorem SegmentKind.Spells.not_isMistake {kind : SegmentKind} {text : List Char}
    (h : kind.Spells text) : ¬ kind.IsMistake := by
  cases h <;> simp [IsMistake]

/-! ## Runs of characters -/

section

variable {p : Char → Bool}

/-- More text behind never makes a run of characters shorter. -/
theorem takeWhile_prefix_append (text more : List Char) :
    text.takeWhile p <+: (text ++ more).takeWhile p := by
  induction text with
  | nil => exact List.nil_prefix
  | cons c text ih =>
    by_cases hc : p c
    · simpa [hc] using ih
    · simp [hc]

/-- A run that ends before the text does ends there whatever stands behind. -/
theorem takeWhile_append_of_dropWhile {text : List Char} (h : text.dropWhile p ≠ [])
    (more : List Char) : (text ++ more).takeWhile p = text.takeWhile p := by
  induction text with
  | nil => exact absurd rfl h
  | cons c text ih =>
    by_cases hc : p c
    · simp only [List.dropWhile_cons, hc, if_true] at h
      simp [hc, ih h]
    · simp [hc]

theorem dropWhile_append_of_dropWhile {text : List Char} (h : text.dropWhile p ≠ [])
    (more : List Char) : (text ++ more).dropWhile p = text.dropWhile p ++ more := by
  rw [List.dropWhile_append, if_neg (by simpa using h)]

end

/-! ## First characters -/

theorem TokenKind.ofSingle?_eq_some {c : Char} {kind : TokenKind} (h : ofSingle? c = some kind) :
    kind.spelling? = some (String.ofList [c]) ∧ isDigit c = false ∧ isWordStart c = false := by
  unfold ofSingle? at h
  split at h <;> cases h <;> exact ⟨rfl, rfl, rfl⟩

theorem TokenKind.ofRelational?_eq_some {c : Char} {kinds : TokenKind × TokenKind}
    (h : ofRelational? c = some kinds) :
    kinds.1.spelling? = some (String.ofList [c]) ∧
      kinds.2.spelling? = some (String.ofList [c, '=']) ∧ isDigit c = false ∧
      isWordStart c = false := by
  unfold ofRelational? at h
  split at h <;> cases h <;> exact ⟨rfl, rfl, rfl, rfl⟩

namespace Segment

/-- A character that starts a number or a word starts none of the segments that are looked
for before. -/
theorem cut_of_isWordPart {c : Char} (hc : isDigit c ∨ isWordStart c) (rest : List Char) :
    cut c rest = if isDigit c then cutNumber c rest else cutWord c rest := by
  have hne {d : Char} (hd : isDigit d = false ∧ isWordStart d = false) : c ≠ d := by
    rintro rfl
    simp [hd.1, hd.2] at hc
  have hsingle : TokenKind.ofSingle? c = none := by
    rw [Option.eq_none_iff_forall_ne_some]
    intro kind hkind
    exact hne (TokenKind.ofSingle?_eq_some hkind).2 rfl
  have hrelational : TokenKind.ofRelational? c = none := by
    rw [Option.eq_none_iff_forall_ne_some]
    intro kinds hkinds
    exact hne (TokenKind.ofRelational?_eq_some hkinds).2.2 rfl
  have hblank : ¬ (c = ' ' ∨ c = '\t' ∨ c = '\r') := by
    rintro (h | h | h) <;> exact hne ⟨rfl, rfl⟩ h
  simp only [cut, hsingle, hrelational, if_neg (hne (d := '/') ⟨rfl, rfl⟩), if_neg hblank,
    if_neg (hne (d := '\n') ⟨rfl, rfl⟩), if_neg (hne (d := '"') ⟨rfl, rfl⟩)]
  by_cases hdigit : isDigit c
  · simp [hdigit]
  · simp [hdigit, hc.resolve_left hdigit]

theorem cut_of_isDigit {c : Char} (hc : isDigit c) (rest : List Char) :
    cut c rest = cutNumber c rest := by
  rw [cut_of_isWordPart (.inl hc), if_pos hc]

theorem cut_of_isWordStart {c : Char} (hc : isWordStart c) (rest : List Char) :
    cut c rest = cutWord c rest := by
  have hdigit : ¬ isDigit c := by
    simp only [isWordStart, isDigit, Char.le_def, UInt32.le_iff_toNat_le, Bool.or_eq_true,
      Bool.and_eq_true, decide_eq_true_eq] at hc ⊢
    rintro ⟨hlow, hhigh⟩
    rcases hc with (⟨h, -⟩ | ⟨h, -⟩) | rfl
    · exact absurd (h.trans hhigh) (by decide)
    · exact absurd (h.trans hhigh) (by decide)
    · exact absurd hhigh (by decide)
  rw [cut_of_isWordPart (.inr hc), if_neg hdigit]

end Segment

/-! ## Classification -/

theorem Segment.cut_of_spelling {kind : TokenKind} {text : String} {c : Char} {rest : List Char}
    (spelling : kind.spelling? = some text) (h : text.toList = c :: rest) :
    Segment.cut c rest = (⟨.token kind, c :: rest⟩, []) := by
  cases kind <;> cases spelling <;> cases h <;> rfl

theorem TokenKind.spelling?_ofWord {word : String} (h : ofWord word ≠ .identifier) :
    (ofWord word).spelling? = some word := by
  unfold ofWord at h ⊢
  cases hfind : keywords.find? fun k => k.spelling? = some word with
  | none => simp [hfind] at h
  | some kind => simpa using List.find?_some hfind

theorem TokenKind.ofWord_of_free {word : String}
    (h : ∀ kind : TokenKind, kind.spelling? ≠ some word) : ofWord word = .identifier := by
  rw [ofWord, List.find?_eq_none.mpr fun kind _ => by simpa using h kind]
  rfl

/-- A word that is not read as a keyword is spelled like no symbol and no keyword. -/
theorem TokenKind.free_of_ofWord {c : Char} {rest : List Char} (hc : isWordStart c)
    (h : ofWord (String.ofList (c :: rest)) = .identifier) (kind : TokenKind) :
    kind.spelling? ≠ some (String.ofList (c :: rest)) := by
  intro hspelling
  have hcut := Segment.cut_of_spelling hspelling String.toList_ofList
  simp only [Segment.cut_of_isWordStart hc, Segment.cutWord, Prod.mk.injEq, Segment.mk.injEq,
    SegmentKind.token.injEq] at hcut
  obtain ⟨⟨hkind, htext⟩, -⟩ := hcut
  rw [htext, h] at hkind
  cases hkind
  cases hspelling

/-- By itself a text is cut as a whole, and as the kind it has. -/
theorem SegmentKind.Spells.cut {kind : SegmentKind} {c : Char} {rest : List Char}
    (h : kind.Spells (c :: rest)) : Segment.cut c rest = (⟨kind, c :: rest⟩, []) := by
  generalize htext : c :: rest = text at h
  cases h with
  | spelled spelling => exact (Segment.cut_of_spelling spelling htext.symm).trans (by rw [htext])
  | name first others free =>
    cases htext
    rw [Segment.cut_of_isWordStart first, Segment.cutWord, List.takeWhile_eq_self_iff.mpr others,
      List.dropWhile_eq_nil_iff.mpr others, TokenKind.ofWord_of_free free]
  | whole _ all =>
    cases htext
    have hrest : ∀ d ∈ rest, isDigit d := fun d hd => all d (List.mem_cons_of_mem _ hd)
    rw [Segment.cut_of_isDigit (all c (List.mem_cons_self ..)), Segment.cutNumber,
      List.takeWhile_eq_self_iff.mpr hrest, List.dropWhile_eq_nil_iff.mpr hrest]
  | @decimal whole fraction someWhole allWhole someFraction allFraction =>
    obtain ⟨first, whole, rfl⟩ := List.exists_cons_of_ne_nil someWhole
    obtain ⟨d, fraction, rfl⟩ := List.exists_cons_of_ne_nil someFraction
    obtain ⟨rfl, rfl⟩ : c = first ∧ rest = whole ++ '.' :: d :: fraction := by simpa using htext
    obtain ⟨hc, hwhole⟩ := List.forall_mem_cons.mp allWhole
    obtain ⟨hd, hfraction⟩ := List.forall_mem_cons.mp allFraction
    rw [Segment.cut_of_isDigit hc, Segment.cutNumber, List.takeWhile_append_of_pos hwhole,
      List.dropWhile_append_of_pos hwhole]
    simp [show isDigit '.' = false from rfl, hd, List.takeWhile_eq_self_iff.mpr hfraction,
      List.dropWhile_eq_nil_iff.mpr hfraction]
  | @string body inner =>
    cases htext
    have hinner : ∀ c ∈ body, decide (c ≠ '"') = true := fun c hc => decide_eq_true (inner c hc)
    show Segment.cutString (body ++ ['"']) = _
    rw [Segment.cutString, List.takeWhile_append_of_pos hinner, List.dropWhile_append_of_pos hinner]
    simp
  | blank among =>
    cases htext
    rcases among with rfl | rfl | rfl <;> rfl
  | newline => cases htext; rfl
  | @comment body inner =>
    cases htext
    have hinner : ∀ c ∈ body, decide (c ≠ '\n') = true := fun c hc => decide_eq_true (inner c hc)
    show Segment.cutSlash ('/' :: body) = _
    rw [Segment.cutSlash, List.takeWhile_eq_self_iff.mpr hinner,
      List.dropWhile_eq_nil_iff.mpr hinner]

/-! ## Growth -/

namespace Segment

/-- If the first cut is no mistake then neither is the second, which is no shorter. -/
def Cut.Within (cut more : Cut) : Prop :=
  ¬ cut.1.kind.IsMistake → ¬ more.1.kind.IsMistake ∧ cut.1.text <+: more.1.text

theorem Cut.Within.refl (cut : Cut) : cut.Within cut := fun h => ⟨h, List.prefix_rfl⟩

/-- A cut that is a token whatever stands behind only has to grow. -/
theorem Cut.Within.of_grows {cut more : Cut} (kind : TokenKind)
    (hkind : more.1.kind = .token kind) (h : cut.1.text <+: more.1.text) : cut.Within more :=
  fun _ => ⟨by simp [SegmentKind.IsMistake, hkind], h⟩

variable (more : List Char)

theorem cutRelational_nil_within (c : Char) (kinds : TokenKind × TokenKind) :
    (cutRelational c kinds []).Within (cutRelational c kinds more) := by
  cases more with
  | nil => exact .refl _
  | cons d more =>
    by_cases hd : d = '='
    · subst hd
      exact .of_grows _ rfl (List.prefix_append [c] ['='])
    · exact .of_grows kinds.1 (by simp [cutRelational, hd]) (by simp [cutRelational, hd])

theorem cutRelational_within (c : Char) (kinds : TokenKind × TokenKind) (text : List Char) :
    (cutRelational c kinds text).Within (cutRelational c kinds (text ++ more)) := by
  cases text with
  | nil => exact cutRelational_nil_within more c kinds
  | cons d text =>
    by_cases hd : d = '='
    · subst hd
      exact .of_grows _ rfl List.prefix_rfl
    · exact .of_grows kinds.1 (by simp [cutRelational, hd]) (by simp [cutRelational, hd])

theorem cutSlash_nil_within : (cutSlash []).Within (cutSlash more) := by
  cases more with
  | nil => exact .refl _
  | cons d more =>
    by_cases hd : d = '/'
    · subst hd
      exact fun _ => ⟨by simp [cutSlash, SegmentKind.IsMistake], List.prefix_append ['/'] _⟩
    · exact .of_grows .slash (by simp [cutSlash, hd]) (by simp [cutSlash, hd])

theorem cutSlash_within (text : List Char) :
    (cutSlash text).Within (cutSlash (text ++ more)) := by
  cases text with
  | nil => exact cutSlash_nil_within more
  | cons d text =>
    by_cases hd : d = '/'
    · subst hd
      intro h
      refine ⟨h, ?_⟩
      simpa [cutSlash] using takeWhile_prefix_append text more
    · exact .of_grows .slash (by simp [cutSlash, hd]) (by simp [cutSlash, hd])

/-- A closed string stays as it is. -/
theorem cutString_within (text : List Char) :
    (cutString text).Within (cutString (text ++ more)) := by
  cases hafter : text.dropWhile (· ≠ '"') with
  | nil =>
    intro h
    exact absurd (.inl (by simp only [cutString, hafter])) h
  | cons quote after =>
    have hdrop : text.dropWhile (· ≠ '"') ≠ [] := hafter ▸ List.cons_ne_nil quote after
    refine .of_grows .string ?_ ?_ <;>
      simp only [cutString, takeWhile_append_of_dropWhile hdrop more,
        dropWhile_append_of_dropWhile hdrop more, hafter, List.cons_append, List.prefix_rfl]

/-- A number has at least the digits before a point. -/
theorem whole_prefix_cutNumber (c : Char) (text : List Char) :
    c :: text.takeWhile isDigit <+: (cutNumber c text).1.text := by
  unfold cutNumber
  split
  · split
    · exact List.prefix_append ..
    · exact List.prefix_rfl
  · exact List.prefix_rfl

theorem kind_cutNumber (c : Char) (text : List Char) :
    (cutNumber c text).1.kind = .token .number := by
  unfold cutNumber
  split
  · split <;> rfl
  · rfl

theorem cutNumber_within (c : Char) (text : List Char) :
    (cutNumber c text).Within (cutNumber c (text ++ more)) := by
  refine .of_grows .number (kind_cutNumber ..) ?_
  have hwhole : c :: text.takeWhile isDigit <+: (cutNumber c (text ++ more)).1.text :=
    (List.prefix_cons_inj c).mpr (takeWhile_prefix_append text more) |>.trans
      (whole_prefix_cutNumber c (text ++ more))
  rw [cutNumber]
  split
  · next d after hafter =>
    split
    · next hd =>
      have hdrop : text.dropWhile isDigit ≠ [] := by simp [hafter]
      simp only [cutNumber, takeWhile_append_of_dropWhile hdrop more,
        dropWhile_append_of_dropWhile hdrop more, hafter, List.cons_append, if_pos hd]
      simpa using takeWhile_prefix_append after more
    · exact hwhole
  · exact hwhole

theorem cutWord_within (c : Char) (text : List Char) :
    (cutWord c text).Within (cutWord c (text ++ more)) :=
  .of_grows _ rfl ((List.prefix_cons_inj c).mpr (takeWhile_prefix_append text more))

/-- More text behind never makes the first segment shorter. -/
theorem cut_within (c : Char) (text : List Char) : (cut c text).Within (cut c (text ++ more)) := by
  unfold cut
  cases TokenKind.ofSingle? c with
  | some kind => exact .of_grows _ rfl List.prefix_rfl
  | none =>
    cases TokenKind.ofRelational? c with
    | some kinds => exact cutRelational_within more c kinds text
    | none =>
      dsimp only
      split
      · exact cutSlash_within more text
      split
      · exact fun h => ⟨h, List.prefix_rfl⟩
      split
      · exact fun h => ⟨h, List.prefix_rfl⟩
      split
      · exact cutString_within more text
      split
      · exact cutNumber_within more c text
      split
      · exact cutWord_within more c text
      · exact fun h => ⟨h, List.prefix_rfl⟩

/-! ## The cut spells what it is -/

theorem spells_cutRelational {c : Char} {kinds : TokenKind × TokenKind}
    (h : TokenKind.ofRelational? c = some kinds) (rest : List Char) :
    (cutRelational c kinds rest).1.kind.Spells (cutRelational c kinds rest).1.text := by
  obtain ⟨halone, hwith, -⟩ := TokenKind.ofRelational?_eq_some h
  unfold cutRelational
  split
  · simpa using SegmentKind.Spells.spelled hwith
  · simpa using SegmentKind.Spells.spelled halone

theorem spells_cutSlash (rest : List Char) :
    (cutSlash rest).1.kind.Spells (cutSlash rest).1.text := by
  unfold cutSlash
  split
  · exact .comment fun c hc => by simpa using List.mem_takeWhile_imp hc
  · exact .spelled (show TokenKind.slash.spelling? = some "/" from rfl)

theorem spells_cutString {rest : List Char} (h : ¬ (cutString rest).1.kind.IsMistake) :
    (cutString rest).1.kind.Spells (cutString rest).1.text := by
  cases hafter : rest.dropWhile (· ≠ '"') with
  | nil => exact absurd (.inl (by simp only [cutString, hafter])) h
  | cons quote after =>
    have hquote : quote = '"' := by
      have := List.head?_dropWhile_not (· ≠ '"') rest
      rw [hafter] at this
      simpa using this
    simp only [cutString, hafter, hquote]
    exact .string fun c hc => by simpa using List.mem_takeWhile_imp hc

theorem spells_cutNumber {c : Char} (hc : isDigit c) (rest : List Char) :
    (cutNumber c rest).1.kind.Spells (cutNumber c rest).1.text := by
  have hwhole : ∀ d ∈ c :: rest.takeWhile isDigit, isDigit d :=
    List.forall_mem_cons.mpr ⟨hc, fun d hd => List.mem_takeWhile_imp hd⟩
  unfold cutNumber
  split
  · split
    · next hd =>
      exact .decimal (by simp) hwhole (by simp)
        (List.forall_mem_cons.mpr ⟨hd, fun d hd => List.mem_takeWhile_imp hd⟩)
    · exact .whole (by simp) hwhole
  · exact .whole (by simp) hwhole

theorem spells_cutWord {c : Char} (hc : isWordStart c) (rest : List Char) :
    (cutWord c rest).1.kind.Spells (cutWord c rest).1.text := by
  let word := c :: rest.takeWhile isWordPart
  show (SegmentKind.token (TokenKind.ofWord (String.ofList word))).Spells word
  by_cases hkind : TokenKind.ofWord (String.ofList word) = .identifier
  · rw [hkind]
    exact .name hc (fun d hd => List.mem_takeWhile_imp hd) (TokenKind.free_of_ofWord hc hkind)
  · simpa using SegmentKind.Spells.spelled (TokenKind.spelling?_ofWord hkind)

/-- A segment that is no mistake spells what it is. -/
theorem spells_cut {c : Char} {rest : List Char} (h : ¬ (cut c rest).1.kind.IsMistake) :
    (cut c rest).1.kind.Spells (cut c rest).1.text := by
  revert h
  unfold cut
  cases hsingle : TokenKind.ofSingle? c with
  | some kind =>
    intro _
    simpa using SegmentKind.Spells.spelled (TokenKind.ofSingle?_eq_some hsingle).1
  | none =>
    cases hrelational : TokenKind.ofRelational? c with
    | some kinds => exact fun _ => spells_cutRelational hrelational rest
    | none =>
      dsimp only
      split
      · exact fun _ => spells_cutSlash rest
      split
      · next hblank => exact fun _ => .blank hblank
      split
      · next hnewline => exact fun _ => hnewline ▸ .newline
      split
      · exact spells_cutString
      split
      · next hdigit => exact fun _ => spells_cutNumber hdigit rest
      split
      · next hword => exact fun _ => spells_cutWord hword rest
      · exact fun h => absurd (.inr rfl) h

theorem kind_cutRelational (c : Char) (kinds : TokenKind × TokenKind) (rest : List Char) :
    ¬ (cutRelational c kinds rest).1.kind.IsMistake := by
  unfold cutRelational
  split <;> simp [SegmentKind.IsMistake]

theorem kind_cutSlash (rest : List Char) : ¬ (cutSlash rest).1.kind.IsMistake := by
  unfold cutSlash
  split <;> simp [SegmentKind.IsMistake]

theorem cutString_of_isMistake {rest : List Char} (h : (cutString rest).1.kind.IsMistake) :
    cutString rest = (⟨.unterminated, '"' :: rest⟩, []) := by
  cases hafter : rest.dropWhile (· ≠ '"') with
  | nil =>
    have hall := List.takeWhile_eq_self_iff.mpr (List.dropWhile_eq_nil_iff.mp hafter)
    simp only [cutString, hafter, hall]
  | cons quote after =>
    simp only [cutString, hafter] at h
    rcases h with h | h <;> cases h

/-- A mistake is the whole text if it starts with a quote, and one character otherwise. -/
theorem cut_of_isMistake {c : Char} {rest : List Char} (h : (cut c rest).1.kind.IsMistake) :
    c = '"' ∧ cut c rest = (⟨.unterminated, c :: rest⟩, []) ∨
      c ≠ '"' ∧ cut c rest = (⟨.unexpected, [c]⟩, rest) := by
  revert h
  unfold cut
  cases TokenKind.ofSingle? c with
  | some kind => simp [SegmentKind.IsMistake]
  | none =>
    cases TokenKind.ofRelational? c with
    | some kinds => exact fun h => absurd h (kind_cutRelational c kinds rest)
    | none =>
      dsimp only
      split
      · exact fun h => absurd h (kind_cutSlash rest)
      split
      · simp [SegmentKind.IsMistake]
      split
      · simp [SegmentKind.IsMistake]
      split
      · next hquote => exact fun h => .inl ⟨hquote, hquote ▸ cutString_of_isMistake h⟩
      split
      · simp [SegmentKind.IsMistake, kind_cutNumber]
      split
      · simp [SegmentKind.IsMistake, cutWord]
      · next hquote _ _ => exact fun _ => .inr ⟨hquote, rfl⟩

end Segment

/-- Every text of the grammar has a first character. -/
theorem SegmentKind.Spells.ne_nil {kind : SegmentKind} {text : List Char} (h : kind.Spells text) :
    text ≠ [] := by
  cases h with
  | @spelled kind text spelling => cases kind <;> cases spelling <;> decide
  | whole some all => exact some
  | _ => simp

/-- No text has two kinds. -/
theorem SegmentKind.Spells.unique {kind other : SegmentKind} {text : List Char}
    (h : kind.Spells text) (hother : other.Spells text) : kind = other := by
  obtain ⟨c, rest, rfl⟩ := List.exists_cons_of_ne_nil h.ne_nil
  have hcut := h.cut.symm.trans hother.cut
  simpa using hcut

/-- Whatever matches at the front of a text is part of the first segment, which is then
no mistake. -/
theorem SegmentKind.Spells.prefix_cut {kind : SegmentKind} {text : List Char} {c : Char}
    {rest : List Char} (h : kind.Spells text) (hfront : text <+: c :: rest) :
    ¬ (Segment.cut c rest).1.kind.IsMistake ∧ text <+: (Segment.cut c rest).1.text := by
  obtain ⟨first, inner, rfl⟩ := List.exists_cons_of_ne_nil h.ne_nil
  obtain ⟨more, hmore⟩ := hfront
  obtain ⟨rfl, rfl⟩ := List.cons.inj hmore
  have hwithin := Segment.cut_within more first inner
  rw [Segment.Cut.Within, h.cut] at hwithin
  exact hwithin h.not_isMistake

end ClassScript
