import Mathlib.Data.List.Forall2
import ClassScript.Proofs.Lines.Scan
import ClassScript.Proofs.Token.Grammar

/-!
# The division of a text

A text is divided from the front.  The first segment is the longest matching text there
(`Segment.First`), and where nothing matches it is a mistake: everything if it starts
with a quote, one character otherwise.  What is left is divided in the same way
(`Divides`).

There is one division of each text, and it is the one that is scanned (`divides_iff`).
A scan has a token for each token segment and a report for each mistake, and nothing
else (`Scan.ofSource_longest`).
-/

namespace ClassScript

/-! ## First segments -/

/-- What the first segment of a text is. -/
inductive Segment.First : List Char → Segment → Prop where
  | longest {text piece : List Char} {kind : SegmentKind} (spells : kind.Spells piece)
      (front : piece <+: text)
      (longest : ∀ kind' other, SegmentKind.Spells kind' other → other <+: text →
        other.length ≤ piece.length) :
      First text ⟨kind, piece⟩
  | unterminated {rest : List Char}
      (none : ∀ kind other, SegmentKind.Spells kind other → ¬ other <+: '"' :: rest) :
      First ('"' :: rest) ⟨.unterminated, '"' :: rest⟩
  | unexpected {c : Char} {rest : List Char}
      (none : ∀ kind other, SegmentKind.Spells kind other → ¬ other <+: c :: rest)
      (noQuote : c ≠ '"') :
      First (c :: rest) ⟨.unexpected, [c]⟩

namespace Segment

theorem First.ne_nil {text : List Char} {s : Segment} (h : First text s) : s.text ≠ [] := by
  cases h with
  | longest spells => exact spells.ne_nil
  | _ => simp

theorem First.spells {text : List Char} {s : Segment} (h : First text s) :
    s.kind.Spells s.text ∨ s.kind.IsMistake := by
  cases h with
  | longest spells => exact .inl spells
  | unterminated => exact .inr (.inl rfl)
  | unexpected => exact .inr (.inr rfl)

/-- The cut at the front of a text is its first segment. -/
theorem first_cut (c : Char) (rest : List Char) : First (c :: rest) (cut c rest).1 := by
  by_cases h : (cut c rest).1.kind.IsMistake
  · have none : ∀ kind other, SegmentKind.Spells kind other → ¬ other <+: c :: rest :=
      fun kind other hspells hfront => (hspells.prefix_cut hfront).1 h
    obtain ⟨rfl, hcut⟩ | ⟨hquote, hcut⟩ := cut_of_isMistake h
    · rw [hcut]
      exact .unterminated none
    · rw [hcut]
      exact .unexpected none hquote
  · exact .longest (spells_cut h) ⟨_, cut_append c rest⟩ fun kind other hspells hfront =>
      (hspells.prefix_cut hfront).2.length_le

/-- Where nothing matches, the cut is a mistake. -/
theorem isMistake_cut {c : Char} {rest : List Char}
    (none : ∀ kind other, SegmentKind.Spells kind other → ¬ other <+: c :: rest) :
    (cut c rest).1.kind.IsMistake := by
  by_contra h
  exact none _ _ (spells_cut h) ⟨_, cut_append c rest⟩

/-- A text has no other first segment. -/
theorem First.eq_cut {c : Char} {rest : List Char} {s : Segment} (h : First (c :: rest) s) :
    s = (cut c rest).1 := by
  cases h with
  | longest spells front longest =>
    obtain ⟨hmistake, hfront⟩ := spells.prefix_cut front
    have hspells := spells_cut hmistake
    have htext := hfront.eq_of_length_le (longest _ _ hspells ⟨_, cut_append c rest⟩)
    subst htext
    rw [spells.unique hspells]
  | unterminated none =>
    obtain ⟨-, hcut⟩ | ⟨hquote, -⟩ := cut_of_isMistake (isMistake_cut none)
    · rw [hcut]
    · exact absurd rfl hquote
  | unexpected none noQuote =>
    obtain ⟨hquote, -⟩ | ⟨-, hcut⟩ := cut_of_isMistake (isMistake_cut none)
    · exact absurd hquote noQuote
    · rw [hcut]

end Segment

/-! ## Divisions -/

/-- A text is divided into its first segment and a division of what is left. -/
inductive Divides : List Char → List Segment → Prop where
  | nil : Divides [] []
  | cons {s : Segment} {rest : List Char} {more : List Segment}
      (first : Segment.First (s.text ++ rest) s) (others : Divides rest more) :
      Divides (s.text ++ rest) (s :: more)

theorem divides_segments (text : List Char) : Divides text (segments text) := by
  fun_induction segments text with
  | case1 => exact .nil
  | case2 c rest ih =>
    have happend := Segment.cut_append c rest
    rw [← happend]
    exact .cons (happend ▸ Segment.first_cut c rest) ih

theorem Divides.eq_segments {text : List Char} {division : List Segment}
    (h : Divides text division) : division = segments text := by
  induction h with
  | nil => exact segments_nil.symm
  | @cons s rest more first others ih =>
    obtain ⟨c, inner, htext⟩ := List.exists_cons_of_ne_nil first.ne_nil
    rw [htext, List.cons_append] at first ⊢
    have hs := first.eq_cut
    have hrest : (Segment.cut c (inner ++ rest)).2 = rest := by
      have happend := Segment.cut_append c (inner ++ rest)
      rw [← hs, htext, ← List.cons_append] at happend
      exact List.append_cancel_left happend
    rw [segments_cons, ← hs, ih, hrest]

/-- There is one division of a text, and that is what the cuts find. -/
theorem divides_iff {text : List Char} {division : List Segment} :
    Divides text division ↔ division = segments text :=
  ⟨Divides.eq_segments, fun h => h ▸ divides_segments text⟩

/-! ## What a scan makes of a division -/

/-- The value that a token of the kind carries if it has the text. -/
inductive TokenKind.Carries : TokenKind → List Char → Option Literal → Prop where
  | string (body : List Char) :
      Carries .string ('"' :: (body ++ ['"'])) (some (.string (String.ofList body)))
  | whole {digits : List Char} (all : ∀ d ∈ digits, isDigit d) :
      Carries .number digits (some (.number (Decimal.ofDigits digits []).toFloat))
  | decimal {whole fraction : List Char} (all : ∀ d ∈ whole, isDigit d) :
      Carries .number (whole ++ '.' :: fraction)
        (some (.number (Decimal.ofDigits whole fraction).toFloat))
  | nothing {kind : TokenKind} {text : List Char} (noString : kind ≠ .string)
      (noNumber : kind ≠ .number) : Carries kind text none

/-- The token is made of a segment that ends on the line. -/
structure Segment.Makes (s : Nat × Segment) (t : Token) : Prop where
  kind : s.2.kind = .token t.kind
  text : t.text = String.ofList s.2.text
  literal : t.kind.Carries s.2.text t.literal
  line : t.line = s.1

/-- The messages that mistakes are reported with. -/
inductive SegmentKind.Blames : SegmentKind → String → Prop where
  | unterminated : Blames .unterminated "Unterminated string."
  | unexpected : Blames .unexpected "Unexpected character."

/-- The diagnostic reports a segment that ends on the line. -/
structure Segment.Reports (s : Nat × Segment) (d : Diagnostic) : Prop where
  message : s.2.kind.Blames d.problem.message
  line : d.line = s.1
  culprit : d.culprit = .line

def SegmentKind.isToken : SegmentKind → Bool
  | .token _ => true
  | _ => false

instance : DecidablePred SegmentKind.IsMistake :=
  fun kind => inferInstanceAs (Decidable (kind = .unterminated ∨ kind = .unexpected))

theorem no_point_of_isDigit {digits : List Char} (all : ∀ d ∈ digits, isDigit d) :
    ∀ d ∈ digits, decide (d ≠ '.') = true := by
  intro d hd
  refine decide_eq_true ?_
  rintro rfl
  exact absurd (all _ hd) (by decide)

theorem Literal.ofNumberText_whole {digits : List Char} (all : ∀ d ∈ digits, isDigit d) :
    ofNumberText digits = .number (Decimal.ofDigits digits []).toFloat := by
  have hall := no_point_of_isDigit all
  rw [ofNumberText, List.takeWhile_eq_self_iff.mpr hall, List.dropWhile_eq_nil_iff.mpr hall]
  rfl

theorem Literal.ofNumberText_decimal {whole : List Char} (all : ∀ d ∈ whole, isDigit d)
    (fraction : List Char) :
    ofNumberText (whole ++ '.' :: fraction) =
      .number (Decimal.ofDigits whole fraction).toFloat := by
  have hall := no_point_of_isDigit all
  rw [ofNumberText, List.takeWhile_append_of_pos hall, List.dropWhile_append_of_pos hall]
  simp

theorem Literal.ofStringText_quoted (body : List Char) :
    ofStringText ('"' :: (body ++ ['"'])) = .string (String.ofList body) := by
  rw [ofStringText, List.drop_one, List.tail_cons, List.dropLast_concat]

/-- The value of a token is read off its text alone. -/
theorem SegmentKind.Spells.carries {kind : TokenKind} {text : List Char}
    (h : (SegmentKind.token kind).Spells text) :
    kind.Carries text (Literal.ofToken? kind text) := by
  cases h with
  | spelled spelling =>
    cases kind <;> first | exact .nothing (by decide) (by decide) | cases spelling
  | name => exact .nothing (by decide) (by decide)
  | whole _ all =>
    rw [Literal.ofToken?, Literal.ofNumberText_whole all]
    exact .whole all
  | @decimal whole fraction _ allWhole _ _ =>
    rw [Literal.ofToken?, Literal.ofNumberText_decimal allWhole]
    exact .decimal allWhole
  | @string body _ =>
    rw [Literal.ofToken?, Literal.ofStringText_quoted]
    exact .string body

/-- Every segment of a division is spelled as its kind is, or is a mistake. -/
theorem Divides.spells {text : List Char} {division : List Segment} (h : Divides text division) :
    ∀ s ∈ division, s.kind.Spells s.text ∨ s.kind.IsMistake := by
  induction h with
  | nil => exact nofun
  | cons first others ih => exact List.forall_mem_cons.mpr ⟨first.spells, ih⟩

theorem Divides.flatMap {text : List Char} {division : List Segment} (h : Divides text division) :
    division.flatMap Segment.text = text := by
  induction h with
  | nil => rfl
  | cons first others ih => rw [List.flatMap_cons, ih]

theorem Divides.ne_nil {text : List Char} {division : List Segment} (h : Divides text division) :
    ∀ s ∈ division, s.text ≠ [] := by
  induction h with
  | nil => exact nofun
  | cons first others ih => exact List.forall_mem_cons.mpr ⟨first.ne_nil, ih⟩

/-- A map that is defined where `p` holds has a value for each of these, in order. -/
theorem forall₂_filter_filterMap {α β : Type} {R : α → β → Prop} {p : α → Bool} {f : α → Option β}
    {l : List α} (h : ∀ a ∈ l, if p a then ∃ b, f a = some b ∧ R a b else f a = none) :
    List.Forall₂ R (l.filter p) (l.filterMap f) := by
  induction l with
  | nil => exact .nil
  | cons a rest ih =>
    obtain ⟨ha, hrest⟩ := List.forall_mem_cons.mp h
    split at ha
    · next hp =>
      obtain ⟨b, hb, hR⟩ := ha
      rw [List.filter_cons_of_pos hp, List.filterMap_cons_some hb]
      exact .cons hR (ih hrest)
    · next hp =>
      rw [List.filter_cons_of_neg hp, List.filterMap_cons_none ha]
      exact ih hrest

/-- A scan has a token for each token segment, in order, and no other. -/
theorem Scan.ofSource_tokens {source : String} {division : List Segment}
    (h : Divides source.toList division) :
    List.Forall₂ Segment.Makes ((numbered 1 division).filter fun s => s.2.kind.isToken)
      (ofSource source).tokens := by
  obtain rfl := h.eq_segments
  rw [ofSource, ofChars_eq]
  refine forall₂_filter_filterMap fun s hs => ?_
  have hspells := h.spells s.2 (mem_of_mem_numbered hs)
  obtain ⟨line, kind, text⟩ := s
  cases kind with
  | token kind =>
    obtain hspells | hmistake := hspells
    · exact ⟨_, rfl, ⟨rfl, rfl, hspells.carries, rfl⟩⟩
    · rcases hmistake with h | h <;> cases h
  | _ => rfl

/-- A scan has a report for each mistake, in order, and no other. -/
theorem Scan.ofSource_diagnostics {source : String} {division : List Segment}
    (h : Divides source.toList division) :
    List.Forall₂ Segment.Reports ((numbered 1 division).filter fun s => s.2.kind.IsMistake)
      (ofSource source).diagnostics := by
  obtain rfl := h.eq_segments
  rw [ofSource, ofChars_eq]
  refine forall₂_filter_filterMap fun s hs => ?_
  obtain ⟨line, kind, text⟩ := s
  cases kind with
  | unterminated => exact ⟨_, rfl, ⟨.unterminated, rfl, rfl⟩⟩
  | unexpected => exact ⟨_, rfl, ⟨.unexpected, rfl, rfl⟩⟩
  | _ => rfl

/-- The scan is that of the longest matches.  A text has one division, whose segments are
not empty and cover it.  Each token segment makes a token and each mistake a report, in
order, and the text ends once, on the line after its newlines. -/
theorem Scan.ofSource_longest (source : String) :
    ∃ division : List Segment,
      (∀ other, Divides source.toList other ↔ other = division) ∧
      division.flatMap Segment.text = source.toList ∧
      (∀ s ∈ division, s.text ≠ []) ∧
      List.Forall₂ Segment.Makes ((numbered 1 division).filter fun s => s.2.kind.isToken)
        (ofSource source).tokens ∧
      List.Forall₂ Segment.Reports ((numbered 1 division).filter fun s => s.2.kind.IsMistake)
        (ofSource source).diagnostics ∧
      (ofSource source).endLine = 1 + newlines source.toList := by
  have h := divides_segments source.toList
  exact ⟨_, fun _ => divides_iff, h.flatMap, h.ne_nil, ofSource_tokens h,
    ofSource_diagnostics h, ofSource_endLine source⟩

end ClassScript
