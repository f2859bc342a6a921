import ClassScript.Proofs.Token.Division

/-!
# Tokens written out

Tokens are written out as their texts, with blanks or newlines between them (`Writes`).
By itself the text of a token is cut as a whole (`SegmentKind.Spells.cut`), and a gap
behind it changes nothing, as no token but a string goes on with one, and a string has
ended (`SegmentKind.Spells.cut_before_gap`).  So what is written out is divided into the
tokens and the characters of the gaps (`contents_of_writes`).

The tokens of a scan are well-formed, so they can be written out and scanned once more.
-/

namespace ClassScript

/-- The text is one that the kind of the token has, and the literal is the one this text
carries. -/
structure Token.WellFormed (t : Token) : Prop where
  spells : (SegmentKind.token t.kind).Spells t.text.toList
  carries : t.kind.Carries t.text.toList t.literal

/-- A token but for its line. -/
def Token.content (t : Token) : TokenKind × String × Option Literal := (t.kind, t.text, t.literal)

/-- The text has the tokens with a gap behind each but the last. -/
inductive Writes : List Token → List Char → Prop where
  | nothing : Writes [] []
  | last (t : Token) : Writes [t] t.text.toList
  | more (t : Token) {next : Token} {rest : List Token} {gap : Char} {gaps text : List Char}
      (blank : IsGap gap) (blanks : ∀ c ∈ gaps, IsGap c) (others : Writes (next :: rest) text) :
      Writes (t :: next :: rest) (t.text.toList ++ gap :: (gaps ++ text))

/-- All tokens can be written out, with any one gap between them. -/
theorem writes_intercalate {gap : Char} (blank : IsGap gap) (tokens : List Token) :
    Writes tokens ([gap].intercalate (tokens.map fun t => t.text.toList)) := by
  induction tokens with
  | nil => exact .nothing
  | cons t rest ih =>
    cases rest with
    | nil => simpa using Writes.last t
    | cons next rest => simpa using Writes.more t blank (List.forall_mem_nil _) ih

/-! ## Well-formed tokens -/

/-- A text carries one value. -/
theorem TokenKind.Carries.eq_ofToken? {kind : TokenKind} {text : List Char}
    {literal : Option Literal} (h : kind.Carries text literal) :
    literal = Literal.ofToken? kind text := by
  cases h with
  | string body => rw [Literal.ofToken?, Literal.ofStringText_quoted]
  | whole all => rw [Literal.ofToken?, Literal.ofNumberText_whole all]
  | decimal all => rw [Literal.ofToken?, Literal.ofNumberText_decimal all]
  | nothing noString noNumber => cases kind <;> first | rfl | contradiction

/-- The segment of a token alone makes that token, on whatever line it ends. -/
theorem Token.WellFormed.token?_content {t : Token} (h : t.WellFormed) (line : Nat) :
    (Segment.token? line ⟨.token t.kind, t.text.toList⟩).map Token.content = some t.content := by
  rw [Segment.token?, content, h.carries.eq_ofToken?]
  simp [content]

/-- Every token of a scan is well-formed. -/
theorem Scan.wellFormed {source : String} {t : Token} (ht : t ∈ (ofSource source).tokens) :
    t.WellFormed := by
  rw [ofSource, ofChars_eq] at ht
  obtain ⟨⟨line, kind, text⟩, hs, htoken⟩ := List.mem_filterMap.mp ht
  have hspells := (divides_segments source.toList).spells _ (mem_of_mem_numbered hs)
  cases kind with
  | token kind =>
    cases htoken
    have hmistake : ¬ (SegmentKind.token kind).IsMistake := by simp [SegmentKind.IsMistake]
    have hspelled : (SegmentKind.token kind).Spells text := hspells.resolve_right hmistake
    constructor
    · rwa [String.toList_ofList]
    · rw [String.toList_ofList]
      exact hspelled.carries
  | _ => cases htoken

/-! ## Cuts of what is written out -/

/-- A token with a gap behind it is cut as by itself. -/
theorem SegmentKind.Spells.cut_before_gap {kind : TokenKind} {c gap : Char}
    {text rest : List Char} (h : (SegmentKind.token kind).Spells (c :: text)) (hgap : IsGap gap) :
    Segment.cut c (text ++ gap :: rest) = (⟨.token kind, c :: text⟩, gap :: rest) := by
  have hcut := h.cut
  rw [Segment.cut_gap rest hgap (by rw [hcut]; exact nofun) (by rw [hcut]; exact nofun), hcut]
  rfl

theorem SegmentKind.Spells.segments {kind : TokenKind} {text : List Char}
    (h : (SegmentKind.token kind).Spells text) :
    ClassScript.segments text = [⟨.token kind, text⟩] := by
  obtain ⟨c, text, rfl⟩ := List.exists_cons_of_ne_nil h.ne_nil
  rw [segments_cons, h.cut, segments_nil]

theorem SegmentKind.Spells.segments_before_gap {kind : TokenKind} {gap : Char}
    {text rest : List Char} (h : (SegmentKind.token kind).Spells text) (hgap : IsGap gap) :
    ClassScript.segments (text ++ gap :: rest) =
      ⟨.token kind, text⟩ :: ClassScript.segments (gap :: rest) := by
  obtain ⟨c, text, rfl⟩ := List.exists_cons_of_ne_nil h.ne_nil
  rw [List.cons_append, segments_cons, h.cut_before_gap hgap]

/-- What a gap is divided into. -/
def gapKind (c : Char) : SegmentKind := if c = '\n' then .newline else .blank

theorem IsGap.cut {c : Char} (h : IsGap c) (rest : List Char) :
    Segment.cut c rest = (⟨gapKind c, [c]⟩, rest) := by
  rcases h with rfl | rfl | rfl | rfl <;> rfl

theorem segments_append_gaps {gaps : List Char} (h : ∀ c ∈ gaps, IsGap c) (rest : List Char) :
    segments (gaps ++ rest) = gaps.map (fun c => ⟨gapKind c, [c]⟩) ++ segments rest := by
  induction gaps with
  | nil => rfl
  | cons c gaps ih =>
    obtain ⟨hc, hgaps⟩ := List.forall_mem_cons.mp h
    rw [List.cons_append, segments_cons, hc.cut, ih hgaps]
    rfl

/-- The contents of the tokens among the segments. -/
def contents (ss : List Segment) : List (TokenKind × String × Option Literal) :=
  ss.filterMap fun s => (s.token? 0).map Token.content

theorem contents_gaps (gaps : List Char) :
    contents (gaps.map fun c => ⟨gapKind c, [c]⟩) = [] := by
  rw [contents, List.filterMap_map]
  refine List.filterMap_eq_nil_iff.mpr fun c _ => ?_
  by_cases hc : c = '\n' <;> simp [gapKind, hc, Segment.token?]

theorem contents_numbered (line : Nat) (ss : List Segment) :
    ((numbered line ss).filterMap fun s => s.2.token? s.1).map Token.content = contents ss := by
  induction ss generalizing line with
  | nil => rfl
  | cons s rest ih =>
    have hs : (s.token? (line + newlines s.text)).map Token.content =
        (s.token? 0).map Token.content := by
      unfold Segment.token?
      cases s.kind <;> rfl
    rw [contents, List.filterMap_cons, ← hs, numbered, List.filterMap_cons]
    cases s.token? (line + newlines s.text) with
    | none => exact ih _
    | some t => exact congrArg _ (ih _)

/-- A text in which tokens are written out has these tokens and gaps, and nothing else. -/
theorem contents_of_writes {tokens : List Token} {text : List Char} (h : Writes tokens text)
    (hformed : ∀ t ∈ tokens, t.WellFormed) :
    contents (segments text) = tokens.map Token.content ∧
      ∀ s ∈ segments text, ¬ s.kind.IsMistake := by
  induction h with
  | nothing => simp [contents]
  | last t =>
    have ht := hformed t (List.mem_singleton_self t)
    rw [ht.spells.segments, contents, List.filterMap_cons, ht.token?_content]
    exact ⟨rfl, List.forall_mem_singleton.mpr ht.spells.not_isMistake⟩
  | @more t next rest gap gaps text blank blanks others ih =>
    obtain ⟨ht, hrest⟩ := List.forall_mem_cons.mp hformed
    obtain ⟨hcontents, hsound⟩ := ih hrest
    have hgaps : ∀ c ∈ gap :: gaps, IsGap c := List.forall_mem_cons.mpr ⟨blank, blanks⟩
    have hsegments : segments (t.text.toList ++ gap :: (gaps ++ text)) =
        ⟨.token t.kind, t.text.toList⟩ ::
          ((gap :: gaps).map (fun c => ⟨gapKind c, [c]⟩) ++ segments text) := by
      rw [ht.spells.segments_before_gap blank, ← List.cons_append, segments_append_gaps hgaps]
    rw [hsegments]
    constructor
    · have hbetween := contents_gaps (gap :: gaps)
      unfold contents at hcontents hbetween ⊢
      rw [List.filterMap_cons, ht.token?_content, List.filterMap_append, hbetween, hcontents]
      rfl
    · refine List.forall_mem_cons.mpr ⟨ht.spells.not_isMistake, ?_⟩
      refine List.forall_mem_append.mpr ⟨List.forall_mem_map.mpr fun c _ => ?_, hsound⟩
      by_cases hc : c = '\n' <;> simp [gapKind, hc, SegmentKind.IsMistake]

/-- The scan of a text in which tokens are written out has no mistakes, and these tokens
but for their lines. -/
theorem Scan.ofSource_of_writes {source : String} {tokens : List Token}
    (h : Writes tokens source.toList) (hformed : ∀ t ∈ tokens, t.WellFormed) :
    (ofSource source).diagnostics = [] ∧
      (ofSource source).tokens.map Token.content = tokens.map Token.content := by
  obtain ⟨hcontents, hsound⟩ := contents_of_writes h hformed
  constructor
  · have hreports := ofSource_diagnostics (divides_segments source.toList)
    have hnone : (numbered 1 (segments source.toList)).filter (fun s => s.2.kind.IsMistake) = [] :=
      List.filter_eq_nil_iff.mpr fun s hs => by
        simpa using hsound s.2 (mem_of_mem_numbered hs)
    rw [hnone] at hreports
    exact List.forall₂_nil_left_iff.mp hreports
  · rw [← hcontents, ofSource, ofChars_eq]
    exact contents_numbered 1 (segments source.toList)

/-- Tokens that are written out and scanned again are the same but for their lines, and
nothing is reported.  So are the tokens of another scan. -/
theorem Scan.ofSource_written (source : String) :
    (∀ tokens, (∀ t ∈ tokens, t.WellFormed) → Writes tokens source.toList →
      (ofSource source).diagnostics = [] ∧
        (ofSource source).tokens.map Token.content = tokens.map Token.content) ∧
    ∀ other : String, (ofSource other).diagnostics = [] →
      Writes (ofSource other).tokens source.toList →
      (ofSource source).diagnostics = [] ∧
        (ofSource source).tokens.map Token.content =
          (ofSource other).tokens.map Token.content :=
  ⟨fun _ hformed h => ofSource_of_writes h hformed,
    fun _ _ h => ofSource_of_writes h fun _ => wellFormed⟩

/-- Slashes that make no comment, digits around a point that make no decimal, and a string
with slashes and a newline. -/
theorem Scan.ofSource_written_apart :
    ∃ source other : String, ∃ tokens : List Token,
      (∀ t ∈ tokens, t.WellFormed) ∧ Writes tokens source.toList ∧
      (ofSource source).diagnostics = [] ∧
      (ofSource source).tokens.map Token.content = tokens.map Token.content ∧
      (ofSource other).diagnostics = [] ∧ (ofSource other).tokens = tokens ∧
      (ofSource source).tokens.map Token.content =
        (ofSource other).tokens.map Token.content := by
  let five := Literal.number (Decimal.ofDigits ['5'] []).toFloat
  let tokens : List Token :=
    [⟨.slash, "/", none, 1⟩, ⟨.slash, "/", none, 1⟩, ⟨.number, "5", some five, 1⟩,
      ⟨.dot, ".", none, 1⟩, ⟨.number, "5", some five, 1⟩,
      ⟨.string, "\"//\n\"", some (.string "//\n"), 2⟩]
  have hother : (ofSource "/ /5 .5\"//\n\"").tokens = tokens := by decide +kernel
  have hformed : ∀ t ∈ tokens, t.WellFormed := hother ▸ fun _ => wellFormed
  have htext : "/ / 5 . 5 \"//\n\"".toList =
      [' '].intercalate (tokens.map fun t => t.text.toList) := by decide +kernel
  have hwrites : Writes tokens "/ / 5 . 5 \"//\n\"".toList :=
    htext ▸ writes_intercalate (by decide) tokens
  have hnone : (ofSource "/ /5 .5\"//\n\"").diagnostics = [] := by decide +kernel
  obtain ⟨hlist, hscan⟩ := ofSource_written "/ / 5 . 5 \"//\n\""
  obtain ⟨hsilent, hsame⟩ := hlist tokens hformed hwrites
  obtain ⟨-, hagain⟩ := hscan _ hnone (hother ▸ hwrites)
  exact ⟨_, _, tokens, hformed, hwrites, hsilent, hsame, hnone, hother, hagain⟩

end ClassScript
