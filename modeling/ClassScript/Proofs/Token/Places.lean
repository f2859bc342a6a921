import ClassScript.Proofs.Token.Division

/-!
# Places of tokens

The segments of a division stand one behind the other, each with the text before it and
the text behind it (`places`).  The line that a scan counts for a segment is the one on
which it ends in its place (`numbered_eq_map_places`).

Of all tokens only a string can hold a newline, so every other token starts and ends on
its line.  A mistaken character is no newline, and an unterminated string has nothing
behind it (`Divides.first`).
-/

namespace ClassScript

/-- A segment of a text between what stands before it and what stands behind it. -/
structure Place where
  before : List Char
  segment : Segment
  behind : List Char

/-- The text up to the end of the segment. -/
def Place.upTo (p : Place) : List Char := p.before ++ p.segment.text

/-- The segments of a division in their places, for a division of what is behind the
text. -/
def places (before : List Char) : List Segment → List Place
  | [] => []
  | s :: rest => ⟨before, s, rest.flatMap Segment.text⟩ :: places (before ++ s.text) rest

/-- The counted lines are those on which the segments end. -/
theorem numbered_eq_map_places (before : List Char) (division : List Segment) :
    numbered (1 + newlines before) division =
      (places before division).map fun p => (1 + newlines p.upTo, p.segment) := by
  induction division generalizing before with
  | nil => rfl
  | cons s rest ih =>
    rw [numbered, places, List.map_cons, ← ih, Place.upTo, newlines_append, Nat.add_assoc]

theorem segment_mem_of_mem_places {before : List Char} {division : List Segment} {p : Place}
    (h : p ∈ places before division) : p.segment ∈ division := by
  induction division generalizing before with
  | nil => cases h
  | cons s rest ih =>
    rcases List.mem_cons.mp h with rfl | h
    · exact List.mem_cons_self ..
    · exact List.mem_cons_of_mem _ (ih h)

theorem append_of_mem_places {before : List Char} {division : List Segment} {p : Place}
    (h : p ∈ places before division) :
    p.before ++ p.segment.text ++ p.behind = before ++ division.flatMap Segment.text := by
  induction division generalizing before with
  | nil => cases h
  | cons s rest ih =>
    rcases List.mem_cons.mp h with rfl | h
    · simp
    · rw [ih h, List.flatMap_cons, List.append_assoc]

/-- A place takes nothing away from the text. -/
theorem Divides.covers {text : List Char} {division : List Segment} {p : Place}
    (h : Divides text division) (hp : p ∈ places [] division) :
    p.before ++ p.segment.text ++ p.behind = text := by
  rw [append_of_mem_places hp, h.flatMap, List.nil_append]

/-- A segment is the first one of the text that starts at its place. -/
theorem Divides.first {text before : List Char} {division : List Segment} {p : Place}
    (h : Divides text division) (hp : p ∈ places before division) :
    Segment.First (p.segment.text ++ p.behind) p.segment := by
  induction h generalizing before with
  | nil => cases hp
  | cons first others ih =>
    rcases List.mem_cons.mp hp with rfl | hp
    · rwa [others.flatMap]
    · exact ih hp

/-! ## Lines of tokens and of mistakes -/

/-- The token stands at the place and has the line it ends on.  That is the line of the
closing quote for a string, and for every other token the line it starts on. -/
structure Place.Holds (p : Place) (t : Token) : Prop where
  kind : p.segment.kind = .token t.kind
  text : p.segment.text = t.text.toList
  line : t.line = 1 + newlines (p.before ++ t.text.toList)
  closing : t.kind = .string → ∃ body : List Char,
    t.text.toList = '"' :: (body ++ ['"']) ∧ t.line = 1 + newlines (p.before ++ '"' :: body)
  opening : t.kind ≠ .string → t.line = 1 + newlines p.before

/-- The mistake stands at the place.  An unexpected character is reported where it stands
and an unterminated string where the text ends. -/
inductive Place.Mistaken (endLine : Nat) : Place → Diagnostic → Prop where
  | unexpected (before : List Char) (c : Char) (behind : List Char) :
      Mistaken endLine ⟨before, ⟨.unexpected, [c]⟩, behind⟩
        ⟨1 + newlines before, .line, .lexical .unexpectedCharacter⟩
  | unterminated (before rest : List Char) :
      Mistaken endLine ⟨before, ⟨.unterminated, '"' :: rest⟩, []⟩
        ⟨endLine, .line, .lexical .unterminatedString⟩

theorem Place.holds_of_makes {p : Place} {t : Token}
    (hspells : p.segment.kind.Spells p.segment.text ∨ p.segment.kind.IsMistake)
    (h : Segment.Makes (1 + newlines p.upTo, p.segment) t) : p.Holds t := by
  have htext : p.segment.text = t.text.toList := by rw [h.text, String.toList_ofList]
  have hspelled : (SegmentKind.token t.kind).Spells t.text.toList := by
    rw [← htext, ← h.kind]
    refine hspells.resolve_right ?_
    rw [h.kind]
    exact nofun
  have hline : t.line = 1 + newlines (p.before ++ t.text.toList) := htext ▸ h.line
  refine ⟨h.kind, htext, hline, fun hstring => ?_, fun hkind => ?_⟩
  · rw [hstring] at hspelled
    generalize hchars : t.text.toList = chars at hspelled hline
    cases hspelled with
    | spelled spelling => cases spelling
    | @string body inner =>
      refine ⟨body, rfl, ?_⟩
      rw [hline, ← List.cons_append, ← List.append_assoc, newlines_append]
      rfl
  · rw [hline, newlines_append, hspelled.newlines_eq_zero hkind, Nat.add_zero]

theorem Place.mistaken_of_first {p : Place} {source : List Char} {d : Diagnostic}
    (hfirst : Segment.First (p.segment.text ++ p.behind) p.segment)
    (hplace : p.before ++ p.segment.text ++ p.behind = source)
    (h : p.segment.diagnostic? (1 + newlines p.upTo) = some d) :
    p.Mistaken (1 + newlines source) d := by
  obtain ⟨before, ⟨kind, text⟩, behind⟩ := p
  dsimp only at hfirst hplace
  generalize htext : text ++ behind = found at hfirst
  cases hfirst with
  | longest spells =>
    cases spells <;> cases h
  | @unterminated rest none =>
    have hbehind : behind = [] := by simpa using htext
    subst hbehind
    cases h
    rw [List.append_nil] at hplace
    rw [Place.upTo, hplace]
    exact .unterminated before rest
  | @unexpected c rest none noQuote =>
    cases h
    have hc : c ≠ '\n' := by
      rintro rfl
      exact none _ _ .newline ⟨rest, rfl⟩
    have hlines : newlines (before ++ [c]) = newlines before := by
      simp [newlines, hc]
    rw [Place.upTo, hlines]
    exact .unexpected before c behind

/-- Each token of a scan stands at the place of its segment. -/
theorem Scan.ofSource_holds {source : String} {division : List Segment}
    (h : Divides source.toList division) :
    List.Forall₂ Place.Holds ((places [] division).filter fun p => p.segment.kind.isToken)
      (ofSource source).tokens := by
  have htokens := ofSource_tokens h
  rw [show (1 : Nat) = 1 + newlines [] from rfl, numbered_eq_map_places, List.filter_map,
    List.forall₂_map_left_iff] at htokens
  refine ((List.forall₂_and_left _ _).mpr ⟨fun p hp => ?_, htokens⟩).imp fun p t h =>
    Place.holds_of_makes h.1 h.2
  exact h.spells _ (segment_mem_of_mem_places (List.mem_of_mem_filter hp))

/-- Each report of a scan is about the place of its mistake. -/
theorem Scan.ofSource_mistaken {source : String} {division : List Segment}
    (h : Divides source.toList division) :
    List.Forall₂ (Place.Mistaken (ofSource source).endLine)
      ((places [] division).filter fun p => p.segment.kind.IsMistake)
      (ofSource source).diagnostics := by
  have hreports : (ofSource source).diagnostics =
      (places [] division).filterMap fun p => p.segment.diagnostic? (1 + newlines p.upTo) := by
    have hlines := numbered_eq_map_places [] division
    rw [ofSource, ofChars_eq, ← h.eq_segments]
    show (numbered (1 + newlines []) division).filterMap _ = _
    rw [hlines, List.filterMap_map]
    rfl
  rw [hreports, ofSource_endLine]
  refine forall₂_filter_filterMap fun p hp => ?_
  have hmistaken (d : Diagnostic) := Place.mistaken_of_first (d := d) (h.first hp) (h.covers hp)
  obtain ⟨before, ⟨kind, text⟩, behind⟩ := p
  cases kind with
  | unterminated => exact ⟨_, rfl, hmistaken _ rfl⟩
  | unexpected => exact ⟨_, rfl, hmistaken _ rfl⟩
  | _ => rfl

/-- The lines are exact.  The places of the one division of a text cover the text, each
token has the line it ends on in its place and each mistake that of its place, and the text
ends on the line after all its newlines. -/
theorem Scan.ofSource_lines (source : String) :
    ∃ division : List Segment,
      Divides source.toList division ∧
      (∀ p ∈ places [] division, p.before ++ p.segment.text ++ p.behind = source.toList) ∧
      List.Forall₂ Place.Holds ((places [] division).filter fun p => p.segment.kind.isToken)
        (ofSource source).tokens ∧
      List.Forall₂ (Place.Mistaken (ofSource source).endLine)
        ((places [] division).filter fun p => p.segment.kind.IsMistake)
        (ofSource source).diagnostics ∧
      (ofSource source).endLine = 1 + newlines source.toList := by
  have h := divides_segments source.toList
  exact ⟨_, h, fun _ hp => h.covers hp, ofSource_holds h, ofSource_mistaken h,
    ofSource_endLine source⟩

end ClassScript
