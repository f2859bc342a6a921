import ClassScript.Proofs.Lines.Tree
import ClassScript.Proofs.Token.Lines

/-!
# Texts below each other

A newline ends every segment but a string, and any other blank ends every token but a
string (`Segment.cut_gap`).  So a text without an unterminated string is divided in the
same way if a newline and more text stand behind it, and the text behind is divided as on
its own (`segments_append_newline`).

The lines are counted from the start, so everything in the second text is as many lines
further down as the first one has, with the newline between them (`Scan.ofChars_below`).
-/

namespace ClassScript

/-! ## Cuts before a gap -/

/-- The characters that stand between tokens. -/
def IsGap (c : Char) : Prop := c = ' ' ∨ c = '\t' ∨ c = '\r' ∨ c = '\n'

instance : DecidablePred IsGap :=
  fun c => inferInstanceAs (Decidable (c = ' ' ∨ c = '\t' ∨ c = '\r' ∨ c = '\n'))

theorem IsGap.ordinary {c : Char} (h : IsGap c) :
    c ≠ '=' ∧ c ≠ '/' ∧ isDigit c = false ∧ isWordPart c = false := by
  rcases h with rfl | rfl | rfl | rfl <;> decide

section

variable {p : Char → Bool} {gap : Char} (rest : List Char)

theorem takeWhile_append_gap (hp : p gap = false) (text : List Char) :
    (text ++ gap :: rest).takeWhile p = text.takeWhile p := by
  induction text with
  | nil => simp [hp]
  | cons c text ih => by_cases hc : p c <;> simp [hc, ih]

theorem dropWhile_append_gap (hp : p gap = false) (text : List Char) :
    (text ++ gap :: rest).dropWhile p = text.dropWhile p ++ gap :: rest := by
  induction text with
  | nil => simp [hp]
  | cons c text ih => by_cases hc : p c <;> simp [hc, ih]

end

namespace Segment

/-- The cut with more text behind it. -/
def Cut.append (cut : Cut) (more : List Char) : Cut := (cut.1, cut.2 ++ more)

variable {gap : Char} (rest : List Char)

theorem cutRelational_gap (hgap : IsGap gap) (c : Char) (kinds : TokenKind × TokenKind)
    (text : List Char) :
    cutRelational c kinds (text ++ gap :: rest) =
      (cutRelational c kinds text).append (gap :: rest) := by
  cases text with
  | nil => simp [cutRelational, Cut.append, hgap.ordinary]
  | cons d text => by_cases hd : d = '=' <;> simp [cutRelational, Cut.append, hd]

/-- A comment goes on to the end of its line. -/
theorem cutSlash_gap (hgap : IsGap gap) {text : List Char}
    (h : (cutSlash text).1.kind = .comment → gap = '\n') :
    cutSlash (text ++ gap :: rest) = (cutSlash text).append (gap :: rest) := by
  cases text with
  | nil => simp [cutSlash, Cut.append, hgap.ordinary]
  | cons d text =>
    by_cases hd : d = '/'
    · subst hd
      obtain rfl := h rfl
      simp only [List.cons_append, cutSlash, Cut.append]
      rw [takeWhile_append_gap rest (by simp), dropWhile_append_gap rest (by simp)]
    · simp [cutSlash, Cut.append, hd]

theorem cutString_append_of_closed {text : List Char}
    (h : (cutString text).1.kind ≠ .unterminated) :
    cutString (text ++ rest) = (cutString text).append rest := by
  unfold cutString at h ⊢
  rw [List.takeWhile_append, List.dropWhile_append]
  cases hdrop : text.dropWhile (· ≠ '"') with
  | nil =>
    rw [hdrop] at h
    exact absurd rfl h
  | cons quote after =>
    have hlength : (text.takeWhile (· ≠ '"')).length ≠ text.length := by
      intro hlength
      have happend := congrArg List.length (@List.takeWhile_append_dropWhile Char (· ≠ '"') text)
      rw [List.length_append, hdrop, List.length_cons] at happend
      omega
    rw [if_neg hlength]
    rfl

theorem cutNumber_gap (hgap : IsGap gap) (c : Char) (text : List Char) :
    cutNumber c (text ++ gap :: rest) = (cutNumber c text).append (gap :: rest) := by
  obtain ⟨-, -, hdigit, -⟩ := hgap.ordinary
  have hpoint : gap ≠ '.' := by
    rintro rfl
    exact absurd hgap (by decide)
  simp only [cutNumber, takeWhile_append_gap rest hdigit, dropWhile_append_gap rest hdigit]
  rcases text.dropWhile isDigit with _ | ⟨point, _ | ⟨d, after⟩⟩
  · simp [hpoint, Cut.append]
  · by_cases hpoint : point = '.'
    · subst hpoint
      simp [hdigit, Cut.append]
    · simp [hpoint, Cut.append]
  · by_cases hpoint : point = '.'
    · subst hpoint
      by_cases hd : isDigit d <;>
        simp [hd, Cut.append, takeWhile_append_gap rest hdigit, dropWhile_append_gap rest hdigit]
    · simp [hpoint, Cut.append]

theorem cutWord_gap (hgap : IsGap gap) (c : Char) (text : List Char) :
    cutWord c (text ++ gap :: rest) = (cutWord c text).append (gap :: rest) := by
  obtain ⟨-, -, -, hword⟩ := hgap.ordinary
  simp only [cutWord, Cut.append, takeWhile_append_gap rest hword, dropWhile_append_gap rest hword]

/-- A segment that is not an unterminated string ends before a gap, and a comment before a
newline. -/
theorem cut_gap (hgap : IsGap gap) {c : Char} {text : List Char}
    (h : (cut c text).1.kind ≠ .unterminated)
    (hcomment : (cut c text).1.kind = .comment → gap = '\n') :
    cut c (text ++ gap :: rest) = (cut c text).append (gap :: rest) := by
  unfold cut at h hcomment ⊢
  cases hsingle : TokenKind.ofSingle? c with
  | some kind => rfl
  | none =>
    rw [hsingle] at h hcomment
    cases hrelational : TokenKind.ofRelational? c with
    | some kinds => exact cutRelational_gap rest hgap c kinds text
    | none =>
      rw [hrelational] at h hcomment
      dsimp only at h hcomment ⊢
      split
      · next hslash =>
        rw [if_pos hslash] at hcomment
        exact cutSlash_gap rest hgap hcomment
      split
      · rfl
      split
      · rfl
      split
      · next hquote =>
        subst hquote
        exact cutString_append_of_closed (gap :: rest) h
      split
      · exact cutNumber_gap rest hgap c text
      split
      · exact cutWord_gap rest hgap c text
      · rfl

end Segment

/-- A newline and a text behind it are divided on their own. -/
theorem segments_append_newline {text : List Char}
    (h : ∀ s ∈ segments text, s.kind ≠ .unterminated) (rest : List Char) :
    segments (text ++ '\n' :: rest) = segments text ++ ⟨.newline, ['\n']⟩ :: segments rest := by
  fun_induction segments text with
  | case1 => exact segments_cons '\n' rest
  | case2 c text ih =>
    have hgap : IsGap '\n' := by decide
    rw [List.cons_append, segments_cons,
      Segment.cut_gap rest hgap (h _ (List.mem_cons_self ..)) fun _ => rfl, List.cons_append]
    exact congrArg _ (ih fun s hs => h s (List.mem_cons_of_mem _ hs))

/-! ## Lines -/

theorem numbered_append (line : Nat) (ss more : List Segment) :
    numbered line (ss ++ more) =
      numbered line ss ++ numbered (line + newlines (ss.flatMap Segment.text)) more := by
  induction ss generalizing line with
  | nil => simp [numbered, newlines]
  | cons s rest ih =>
    simp [numbered, ih, newlines, List.count_append, Nat.add_assoc]

/-- Segments that start further down end as much further down. -/
theorem numbered_add (line k : Nat) (ss : List Segment) :
    numbered (line + k) ss = (numbered line ss).map fun s => (s.1 + k, s.2) := by
  induction ss generalizing line with
  | nil => rfl
  | cons s rest ih =>
    simp only [numbered, List.map_cons, Nat.add_right_comm line k, ih]

namespace Segment

theorem token?_add (line k : Nat) (s : Segment) :
    s.token? (line + k) = (s.token? line).map (Token.reline (· + k)) := by
  unfold token?
  cases s.kind <;> rfl

theorem diagnostic?_add (line k : Nat) (s : Segment) :
    s.diagnostic? (line + k) = (s.diagnostic? line).map (Diagnostic.reline (· + k)) := by
  unfold diagnostic?
  cases s.kind <;> rfl

/-- An unterminated string is reported. -/
theorem kind_ne_unterminated {line : Nat} {ss : List Segment}
    (h : ∀ d ∈ (numbered line ss).filterMap fun s => s.2.diagnostic? s.1,
      d.problem ≠ .lexical .unterminatedString) :
    ∀ s ∈ ss, s.kind ≠ .unterminated := by
  induction ss generalizing line with
  | nil => exact nofun
  | cons first rest ih =>
    intro s hs hkind
    rw [numbered, List.filterMap_cons] at h
    rcases List.mem_cons.mp hs with rfl | hs
    · simp [diagnostic?, hkind] at h
    · split at h
      · exact ih h s hs hkind
      · exact ih (fun d hd => h d (List.mem_cons_of_mem _ hd)) s hs hkind

end Segment

/-- What stands below a text whose strings are all closed is found there as on its own,
only further down. -/
theorem Scan.ofChars_below {text : List Char}
    (h : ∀ d ∈ (Scan.ofChars text).diagnostics, d.problem ≠ .lexical .unterminatedString)
    (more : List Char) :
    Scan.ofChars (text ++ '\n' :: more) =
      { tokens := (Scan.ofChars text).tokens ++
          (Scan.ofChars more).tokens.map (Token.reline (· + (newlines text + 1)))
        diagnostics := (Scan.ofChars text).diagnostics ++
          (Scan.ofChars more).diagnostics.map (Diagnostic.reline (· + (newlines text + 1)))
        endLine := (Scan.ofChars more).endLine + (newlines text + 1) } := by
  rw [ofChars_eq] at h
  have hlines : numbered 1 (segments (text ++ '\n' :: more)) =
      numbered 1 (segments text) ++ (newlines text + 2, ⟨.newline, ['\n']⟩) ::
        (numbered 1 (segments more)).map fun s => (s.1 + (newlines text + 1), s.2) := by
    rw [segments_append_newline (Segment.kind_ne_unterminated h), numbered_append, join_segments,
      numbered, ← numbered_add]
    simp [newlines, Nat.add_comm, Nat.add_left_comm]
  have hcount : newlines (text ++ '\n' :: more) = newlines text + (newlines more + 1) := by
    simp [newlines]
  rw [ofChars_eq, ofChars_eq, ofChars_eq]
  dsimp only
  rw [hlines, List.filterMap_append, List.filterMap_append, hcount, List.filterMap_cons_none rfl,
    List.filterMap_cons_none rfl, List.filterMap_map, List.filterMap_map, List.map_filterMap,
    List.map_filterMap]
  simp only [Function.comp_def, Segment.token?_add, Segment.diagnostic?_add, Scan.mk.injEq,
    true_and]
  omega

/-- What stands below a text without mistakes is found there as on its own, only further
down. -/
theorem Scan.ofChars_join {text : List Char} (h : (Scan.ofChars text).diagnostics = [])
    (more : List Char) :
    Scan.ofChars (text ++ '\n' :: more) =
      { tokens := (Scan.ofChars text).tokens ++
          (Scan.ofChars more).tokens.map (Token.reline (· + (newlines text + 1)))
        diagnostics :=
          (Scan.ofChars more).diagnostics.map (Diagnostic.reline (· + (newlines text + 1)))
        endLine := (Scan.ofChars more).endLine + (newlines text + 1) } := by
  have hclosed : ∀ d ∈ (Scan.ofChars text).diagnostics,
      d.problem ≠ .lexical .unterminatedString := by simp [h]
  have hbelow := Scan.ofChars_below hclosed more
  rwa [h, List.nil_append] at hbelow

/-- What stands below blank lines is found there as on its own, only further down. -/
theorem Scan.ofChars_replicate (k : Nat) (text : List Char) :
    Scan.ofChars (List.replicate k '\n' ++ text) =
      { tokens := (Scan.ofChars text).tokens.map (Token.reline (· + k))
        diagnostics := (Scan.ofChars text).diagnostics.map (Diagnostic.reline (· + k))
        endLine := (Scan.ofChars text).endLine + k } := by
  induction k with
  | zero =>
    have htoken : Token.reline (· + 0) = id := rfl
    have hreport : Diagnostic.reline (· + 0) = id := rfl
    rw [htoken, hreport, List.map_id, List.map_id]
    rfl
  | succ k ih =>
    have hnil : (Scan.ofChars []).diagnostics = [] := by simp [Scan.ofChars_eq, numbered]
    have htokens : (Scan.ofChars []).tokens = [] := by simp [Scan.ofChars_eq, numbered]
    have hjoin := Scan.ofChars_join hnil (List.replicate k '\n' ++ text)
    rw [ih, htokens, List.nil_append, List.map_map, List.map_map] at hjoin
    exact hjoin

/-- If every string of a text is closed then a text below it is scanned as on its own, only
further down, and the scan of the first text stays as it is, with its mistakes. -/
theorem Scan.ofSource_below (a b : String)
    (h : ∀ d ∈ (ofSource a).diagnostics, d.problem ≠ .lexical .unterminatedString) :
    ofSource (a ++ "\n" ++ b) =
      { tokens := (ofSource a).tokens ++
          (ofSource b).tokens.map (Token.reline (· + (newlines a.toList + 1)))
        diagnostics := (ofSource a).diagnostics ++
          (ofSource b).diagnostics.map (Diagnostic.reline (· + (newlines a.toList + 1)))
        endLine := (ofSource b).endLine + (newlines a.toList + 1) } := by
  have htext : (a ++ "\n" ++ b).toList = a.toList ++ '\n' :: b.toList := by simp
  unfold ofSource at h ⊢
  rw [htext]
  exact ofChars_below h b.toList

/-- A text that ends in a mistake, after a string over two lines, with a text below it that
ends in an unterminated string. -/
theorem Scan.ofSource_below_mistake :
    ∃ a b : String, (ofSource a).diagnostics ≠ [] ∧ (ofSource b).diagnostics ≠ [] ∧
      (∀ d ∈ (ofSource a).diagnostics, d.problem ≠ .lexical .unterminatedString) ∧
      ofSource (a ++ "\n" ++ b) =
        { tokens := (ofSource a).tokens ++
            (ofSource b).tokens.map (Token.reline (· + (newlines a.toList + 1)))
          diagnostics := (ofSource a).diagnostics ++
            (ofSource b).diagnostics.map (Diagnostic.reline (· + (newlines a.toList + 1)))
          endLine := (ofSource b).endLine + (newlines a.toList + 1) } := by
  have hclosed : ∀ d ∈ (ofSource "x = \"\n\" @").diagnostics,
      d.problem ≠ .lexical .unterminatedString := by decide +kernel
  exact ⟨"x = \"\n\" @", "= 5. \"y", by decide +kernel, by decide +kernel, hclosed,
    ofSource_below _ _ hclosed⟩

end ClassScript
