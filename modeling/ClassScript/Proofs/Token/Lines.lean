import ClassScript.Proofs.Token.Grammar
import ClassScript.Token.Scan

/-!
# Counting lines

A scan looks for newlines only where a segment may have them.  No other segment has one
(`Segment.lineBreaks_cut`), so the line that is counted for a segment is one more than the
number of newlines up to its end, and a text ends on the line after all its newlines
(`countLines_segments`).
-/

namespace ClassScript

/-! ## Newlines of a segment -/

theorem newlines_append (text more : List Char) :
    newlines (text ++ more) = newlines text + newlines more :=
  List.count_append

theorem newlines_eq_zero_of_forall {p : Char → Bool} (hp : p '\n' = false) {text : List Char}
    (h : ∀ c ∈ text, p c) : newlines text = 0 := by
  refine List.count_eq_zero_of_not_mem fun hmem => ?_
  rw [h _ hmem] at hp
  cases hp

/-- Only a string has newlines. -/
theorem SegmentKind.Spells.newlines_eq_zero {kind : TokenKind} {text : List Char}
    (h : (SegmentKind.token kind).Spells text) (hkind : kind ≠ .string) : newlines text = 0 := by
  cases h with
  | spelled spelling => cases kind <;> cases spelling <;> decide
  | @name c rest first others =>
    refine newlines_eq_zero_of_forall (p := isWordPart) (by decide) ?_
    exact List.forall_mem_cons.mpr ⟨by simp [isWordPart, first], others⟩
  | whole _ all => exact newlines_eq_zero_of_forall (p := isDigit) (by decide) all
  | @decimal whole fraction _ allWhole _ allFraction =>
    have hfraction := newlines_eq_zero_of_forall (p := isDigit) (by decide) allFraction
    have hwhole := newlines_eq_zero_of_forall (p := isDigit) (by decide) allWhole
    rw [newlines_append, hwhole, Nat.zero_add]
    simpa [newlines] using hfraction
  | string => exact absurd rfl hkind

/-- The newlines that are looked for are all that there are. -/
theorem SegmentKind.Spells.lineBreaks_eq {kind : SegmentKind} {text : List Char}
    (h : kind.Spells text) : Segment.lineBreaks ⟨kind, text⟩ = newlines text := by
  cases kind with
  | token kind =>
    by_cases hkind : kind = .string
    · rw [hkind]
      rfl
    · rw [h.newlines_eq_zero hkind]
      cases kind <;> first | rfl | exact absurd rfl hkind
  | newline =>
    cases h
    rfl
  | blank =>
    cases h with
    | blank among => rcases among with rfl | rfl | rfl <;> rfl
  | comment =>
    cases h with
    | @comment body inner =>
      have hbody : newlines body = 0 :=
        List.count_eq_zero_of_not_mem fun hmem => inner _ hmem rfl
      show 0 = newlines (['/', '/'] ++ body)
      rw [newlines_append, hbody]
      rfl
  | unterminated => cases h
  | unexpected => cases h

theorem Segment.lineBreaks_cut (c : Char) (rest : List Char) :
    (cut c rest).1.lineBreaks = newlines (cut c rest).1.text := by
  by_cases h : (cut c rest).1.kind.IsMistake
  · obtain ⟨-, hcut⟩ | ⟨-, hcut⟩ := cut_of_isMistake h
    · rw [hcut]
      rfl
    · -- A newline is cut as one, so it is not unexpected.
      have hc : c ≠ '\n' := by
        rintro rfl
        cases congrArg (·.1.kind) hcut
      rw [hcut]
      show 0 = newlines [c]
      simp [newlines, hc]
  · exact (spells_cut h).lineBreaks_eq

/-! ## Lines of the segments of a text -/

/-- Each segment with the line it ends on, for a text that starts on the given
line. -/
def numbered (line : Nat) : List Segment → List (Nat × Segment)
  | [] => []
  | s :: rest => (line + newlines s.text, s) :: numbered (line + newlines s.text) rest

theorem mem_of_mem_numbered {line n : Nat} {s : Segment} :
    ∀ {segments : List Segment}, (n, s) ∈ numbered line segments → s ∈ segments
  | [], h => nomatch h
  | first :: rest, h => by
    rcases List.mem_cons.mp h with he | h
    · cases he
      exact List.mem_cons_self ..
    · exact List.mem_cons_of_mem _ (mem_of_mem_numbered h)

/-- If the newlines that are looked for are all that there are, then the lines are counted
right. -/
theorem countLines_eq {ss : List Segment} (h : ∀ s ∈ ss, s.lineBreaks = newlines s.text)
    (line : Nat) :
    countLines line ss = (numbered line ss, line + newlines (ss.flatMap Segment.text)) := by
  induction ss generalizing line with
  | nil => rfl
  | cons s rest ih =>
    obtain ⟨hs, hrest⟩ := List.forall_mem_cons.mp h
    rw [countLines, hs, ih hrest, List.flatMap_cons, newlines_append, Nat.add_assoc]
    rfl

/-- The lines that are counted for the segments of a text are those on which they end. -/
theorem countLines_segments (line : Nat) (text : List Char) :
    countLines line (segments text) = (numbered line (segments text), line + newlines text) := by
  have h : ∀ s ∈ segments text, s.lineBreaks = newlines s.text := by
    fun_induction segments text with
    | case1 => exact List.forall_mem_nil _
    | case2 c rest ih => exact List.forall_mem_cons.mpr ⟨Segment.lineBreaks_cut c rest, ih⟩
  rw [countLines_eq h, join_segments]

/-- A scan has the tokens and mistakes of the segments on the lines on which they end. -/
theorem Scan.ofChars_eq (text : List Char) :
    ofChars text =
      { tokens := (numbered 1 (segments text)).filterMap fun s => s.2.token? s.1
        diagnostics := (numbered 1 (segments text)).filterMap fun s => s.2.diagnostic? s.1
        endLine := 1 + newlines text } := by
  unfold ofChars
  rw [countLines_segments]

/-- A text ends on the line after all its newlines. -/
theorem Scan.ofSource_endLine (source : String) :
    (ofSource source).endLine = 1 + newlines source.toList := by
  rw [ofSource, ofChars_eq]

end ClassScript
